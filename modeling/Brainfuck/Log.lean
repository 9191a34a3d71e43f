import Brainfuck.Machine.Run
import Brainfuck.Report
import Brainfuck.Source

/-! What is reported to an observer. The command reports that it has loaded a
program; the machine reports that a run starts, every executed instruction, and
that the program is exhausted. What a machine has to report of some steps
follows from the machine before and after and from the instructions executed
between. -/

namespace Brainfuck

/-- How much is asked for. Each level takes in those above it here. -/
inductive Verbosity where
  | error
  | warn
  | info
  | debug
  | trace
  deriving DecidableEq, Repr

namespace Verbosity

def rank : Verbosity → Nat
  | error => 1
  | warn => 2
  | info => 3
  | debug => 4
  | trace => 5

/-- Whether what is reported at `level` is asked for. -/
def covers (asked level : Verbosity) : Bool := level.rank ≤ asked.rank

def text : Verbosity → String
  | error => "ERROR"
  | warn => "WARN"
  | info => "INFO"
  | debug => "DEBUG"
  | trace => "TRACE"

end Verbosity

/-- A character between quotes. Beyond the control characters all are taken to
be printable. -/
def quotedChar : Char → String
  | '\x00' => "\\0"
  | '"' => "\\\""
  | '\\' => "\\\\"
  | ch => if isControl ch then Report.escaped ch else String.singleton ch

def quoted (s : String) : String := "\"" ++ String.join (s.toList.map quotedChar) ++ "\""

def Source.text : Source → String
  | inline parts => "Inline([" ++ ", ".intercalate (parts.map quoted) ++ "])"
  | files names => "Files([" ++ ", ".intercalate (names.map quoted) ++ "])"
  | stdin => "Stdin"

namespace Log

/-! ## Entries -/

/-- The places that report. -/
inductive Site where
  | loaded
  | started
  | stray
  | step
  | exhausted
  deriving DecidableEq, Repr

def Site.level : Site → Verbosity
  | step => .trace
  | loaded | started | stray | exhausted => .debug

/-- The part of the program that the place is in: the command or the machine. -/
def Site.home : Site → String
  | loaded => "bf"
  | started | stray | step | exhausted => "tape_bf::interpreter"

inductive Entry where
  | loaded (source : Source) (debug : Bool)
  | started (size : Nat)
  /-- A `]` with no loop open is about to be ignored. -/
  | stray (ip : Nat)
  | step (e : Executed)
  | exhausted (depth : Nat)
  deriving DecidableEq, Repr

namespace Entry

def site : Entry → Site
  | loaded .. => .loaded
  | started _ => .started
  | stray _ => .stray
  | step _ => .step
  | exhausted _ => .exhausted

def text : Entry → String
  | loaded source debug =>
    "loaded program source=" ++ source.text ++ " debug=" ++ toString debug
  | started size => "run started len=" ++ toString size
  | stray ip => "ignoring ']' with no open loop ip=" ++ toString ip
  | step e =>
    "step ip=" ++ toString e.ip ++ " command=" ++ String.singleton e.command.symbol
      ++ " ptr=" ++ toString e.pointerAfter ++ " effect=" ++ e.effect.text
  | exhausted depth => "program exhausted open_loops=" ++ toString depth

/-- The text behind its level. -/
def line (e : Entry) : String := e.site.level.text ++ " " ++ e.text

end Entry

/-! ## What a machine has to report -/

def ofExecuted (e : Executed) : List Entry :=
  match e.effect with
  | .strayLoopEnd => [.stray e.ip, .step e]
  | _ => [.step e]

/-- The entry of the step that ended the program, if one of them did. -/
def ofEnd (before after : Machine) : List Entry :=
  if before.status = .running ∧ after.status = .terminated then [.exhausted after.depth] else []

/-- The entries of some steps, from the machine before to the machine after. -/
def entries (before : Machine) (done : Array Executed) (after : Machine) : List Entry :=
  done.toList.flatMap ofExecuted ++ ofEnd before after

/-! ## Lines -/

def started (m : Machine) : String := (Entry.started m.program.size).line

def exhausted (before after : Machine) : List String := (ofEnd before after).map Entry.line

/-- The lines of some steps, as far as they are asked for. -/
def ofSteps (v : Verbosity) (before : Machine) (done : Array Executed) (after : Machine) :
    List String :=
  ((entries before done after).filter (v.covers ·.site.level)).map Entry.line

end Log

end Brainfuck
