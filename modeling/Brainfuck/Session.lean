import Brainfuck.Table

/-! Machines that take turns on one terminal. Any of them may be called at any
time, or copied; a copy has a tape, a position and loops of its own, and goes on
with the terminal that all of them share.

A session keeps a list of deeds: the instructions that its machines executed on the
terminal and the ends of programs that they came to, each with the machine it is of. -/

namespace Brainfuck

inductive Call where
  | step
  /-- Steps until the machine stops, but no more than `bound`. -/
  | run (bound : Nat)
  /-- Prints the step table, at most `bound` rows, on a page with this room. -/
  | table (bound : Nat) (room : Option Nat)
  deriving DecidableEq, Repr

/-- Whether the call lets the machine use its terminal. -/
def Call.onTerminal : Call → Bool
  | .step => true
  | .run _ => true
  | .table _ _ => false

structure Answer where
  /-- The instructions that the call executed. -/
  done : Array Executed
  ending : Ending
  /-- What the page took, if the call was for a table. -/
  table : Option (List UInt8)
  deriving DecidableEq, Repr

inductive Deed where
  | executed (e : Executed)
  /-- The machine passed the end of its program. -/
  | ended
  deriving DecidableEq, Repr

namespace Machine

variable {σ : Type} [Terminal σ]

/-- Answers a call. -/
def call (c : Call) (m : Machine) (io : σ) : Answer × Machine × σ :=
  match c with
  | .step =>
    match m.step io with
    | (.executed e, m, io) => (⟨#[e], .paused, none⟩, m, io)
    | (.halted, m, io) => (⟨#[], .halted, none⟩, m, io)
    | (.failed f, m, io) => (⟨#[], .failed f, none⟩, m, io)
  | .run bound =>
    let (es, r, m, io) := m.trace bound io
    (⟨es, r, none⟩, m, io)
  | .table bound room =>
    let (es, r, m, page) := Table.print bound m (.ofRoom room)
    (⟨es, r, some page.taken.toList⟩, m, io)

theorem call_step (m : Machine) (io : σ) : m.call .step io = m.call (.run 1) io := by
  simp only [call, trace_succ, trace_zero]
  rcases m.step io with ⟨e | _ | f, m', io'⟩ <;> rfl

/-- Whether the machine stands behind the last character of its program. -/
def atEnd (m : Machine) : Bool := m.ip.any (m.program.size ≤ ·)

/-- The end of the program, if the machine passed it on the way from `m` to `m'`. -/
def passed (m m' : Machine) : List Deed :=
  if m.status = .running ∧ m'.status = .terminated ∧ m'.atEnd then [.ended] else []

/-- Answers a call, and lists what was done on the terminal. A table is printed
without it. -/
def perform (c : Call) (m : Machine) (io : σ) : List Deed × Machine × σ :=
  let (a, m', io) := m.call c io
  (if c.onTerminal then a.done.toList.map .executed ++ m.passed m' else [], m', io)

theorem perform_run (bound : Nat) (m : Machine) (io : σ) :
    m.perform (.run bound) io =
      ((m.trace bound io).1.toList.map .executed ++ m.passed (m.trace bound io).2.2.1,
        (m.trace bound io).2.2) := rfl

theorem perform_step (m : Machine) (io : σ) : m.perform .step io = m.perform (.run 1) io := by
  rw [perform, perform, call_step]
  rfl

end Machine

structure Session (σ : Type) where
  machines : Array Machine
  io : σ

inductive Turn where
  | call (who : Nat) (c : Call)
  /-- The copy comes last among the machines. -/
  | clone (who : Nat)
  deriving DecidableEq, Repr

namespace Session

variable {σ : Type} [Terminal σ]

/-- Takes one turn. Nothing happens if there is no machine of this number. -/
def take (t : Turn) (s : Session σ) : List (Nat × Deed) × Session σ :=
  match t with
  | .call who c =>
    match s.machines[who]? with
    | none => ([], s)
    | some m =>
      let (deeds, m, io) := m.perform c s.io
      (deeds.map (who, ·), ⟨s.machines.setIfInBounds who m, io⟩)
  | .clone who =>
    match s.machines[who]? with
    | none => ([], s)
    | some m => ([], { s with machines := s.machines.push m })

def play : List Turn → Session σ → List (Nat × Deed) × Session σ
  | [], s => ([], s)
  | t :: turns, s =>
    let (deeds, s) := s.take t
    let (more, s) := s.play turns
    (deeds ++ more, s)

end Session

end Brainfuck
