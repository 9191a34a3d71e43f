import Brainfuck.Machine.Basic

/-! Steps in a row. A run is bounded by a number of steps; whether it has come
to an end within the bound is part of its answer. `trace` also keeps the
instructions that were executed. -/

namespace Brainfuck

inductive Ending where
  /-- The bound was reached; the machine can go on. -/
  | paused
  | halted
  | failed (f : Failure)
  deriving DecidableEq, Repr

namespace Machine

variable {σ : Type} [Terminal σ]

/-- Takes at most `n` steps. -/
def run : Nat → Machine → σ → Ending × Machine × σ
  | 0, m, io => (.paused, m, io)
  | n + 1, m, io =>
    match m.step io with
    | (.executed _, m, io) => run n m io
    | (.halted, m, io) => (.halted, m, io)
    | (.failed f, m, io) => (.failed f, m, io)

/-- `trace`, continuing the record `past`. -/
def traceOnto (past : Array Executed) :
    Nat → Machine → σ → Array Executed × Ending × Machine × σ
  | 0, m, io => (past, .paused, m, io)
  | n + 1, m, io =>
    match m.step io with
    | (.executed e, m, io) => traceOnto (past.push e) n m io
    | (.halted, m, io) => (past, .halted, m, io)
    | (.failed f, m, io) => (past, .failed f, m, io)

/-- Takes at most `n` steps and keeps a record of the instructions executed. -/
def trace (n : Nat) (m : Machine) (io : σ) : Array Executed × Ending × Machine × σ :=
  traceOnto #[] n m io

theorem traceOnto_eq (past : Array Executed) (n : Nat) (m : Machine) (io : σ) :
    traceOnto past n m io = (past ++ (trace n m io).1, (trace n m io).2) := by
  unfold trace
  induction n generalizing past m io with
  | zero => simp [traceOnto]
  | succ n ih =>
    simp only [traceOnto]
    split
    · rename_i e m io _
      rw [ih (past.push e), ih (#[].push e)]
      simp
    · simp
    · simp

theorem trace_zero (m : Machine) (io : σ) : trace 0 m io = (#[], .paused, m, io) := rfl

theorem trace_succ (n : Nat) (m : Machine) (io : σ) :
    trace (n + 1) m io =
      match m.step io with
      | (.executed e, m, io) => (#[e] ++ (trace n m io).1, (trace n m io).2)
      | (.halted, m, io) => (#[], .halted, m, io)
      | (.failed f, m, io) => (#[], .failed f, m, io) := by
  rw [trace, traceOnto]
  split <;> simp_all [traceOnto_eq]

/-- The record aside, a trace is a run. -/
theorem trace_snd (n : Nat) (m : Machine) (io : σ) : (trace n m io).2 = run n m io := by
  induction n generalizing m io with
  | zero => rfl
  | succ n ih =>
    rw [trace_succ, run]
    split <;> simp_all

/-- A bound is used up step by step: a paused run goes on where it stopped. -/
theorem run_add (a b : Nat) (m : Machine) (io : σ) :
    run (a + b) m io =
      match run a m io with
      | (.paused, m, io) => run b m io
      | r => r := by
  induction a generalizing m io with
  | zero => simp [run]
  | succ a ih =>
    rw [Nat.succ_add, run, run]
    split <;> simp_all

end Machine

end Brainfuck
