import Brainfuck.Machine.Run
import Brainfuck.Terminal.Silent
import Brainfuck.Terminal.Streams

/-! The step table: instead of talking to a terminal, the machine runs in
silence and every executed instruction becomes a row. A row shows the pointer
and the current cell that the instruction found.

The table is printed onto a page that may be too short. What fits is kept, and
the machine stops after the instruction whose row did not fit. -/

namespace Brainfuck

namespace Table

/-! ## Text -/

/-- `s` with blanks behind it up to `width` characters. -/
def padRight (width : Nat) (s : String) : String :=
  s ++ String.ofList (List.replicate (width - s.length) ' ')

def titles : String := "STEP | IP  | PTR | CELL | INSTR | ACTION\n"

def rule : String :=
  "-----+-----+-----+------+-------+------------------------------------------------\n"

/-- The row of the instruction executed as number `n`. -/
def row (n : Nat) (e : Executed) : String :=
  padRight 4 (toString n) ++ " | " ++ padRight 3 (toString e.ip) ++ " | "
    ++ padRight 3 (toString e.pointer) ++ " | " ++ padRight 4 (toString e.cell.toNat) ++ " |  "
    ++ String.singleton e.command.symbol ++ "    | " ++ e.effect.text ++ "\n"

/-! ## Printing -/

/-- A sink and what it took so far. -/
structure Page where
  sink : Writer
  taken : Array UInt8

/-- A page that takes `room` bytes, or any number of them. -/
def Page.ofRoom (room : Option Nat) : Page where
  sink := { Writer.unbounded with room, refusal := ⟨.other, "table fault"⟩ }
  taken := #[]

def Page.print (p : Page) (s : String) : Except IoError Unit × Page :=
  let bytes := utf8 s
  let (answer, sink) := p.sink.write bytes
  (answer, ⟨sink, p.taken ++ p.sink.accepted bytes⟩)

/-- Prints the rows of at most `fuel` steps. `done` holds the instructions that
have their rows already, so its size is the number of the next one. -/
def rows : Nat → Array Executed → Machine → Page → Array Executed × Ending × Machine × Page
  | 0, done, m, page => (done, .paused, m, page)
  | fuel + 1, done, m, page =>
    match m.step Silent.mk with
    | (.halted, m, _) => (done, .halted, m, page)
    | (.failed f, m, _) => (done, .failed f, m, page)
    | (.executed e, m, _) =>
      match page.print (row done.size e) with
      | (.error err, page) => (done.push e, .failed (.io err e.ip), m, page)
      | (.ok (), page) => rows fuel (done.push e) m page

/-- Prints the table of a machine, for at most `fuel` steps. The answer begins
with the instructions executed. -/
def print (fuel : Nat) (m : Machine) (page : Page) : Array Executed × Ending × Machine × Page :=
  match page.print titles with
  | (.error e, page) => (#[], .failed (.io e 0), m, page)
  | (.ok (), page) =>
    match page.print rule with
    | (.error e, page) => (#[], .failed (.io e 0), m, page)
    | (.ok (), page) => rows fuel #[] m page

end Table

end Brainfuck
