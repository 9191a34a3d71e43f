import Brainfuck.Terminal.Basic

/-! A byte source that may be interrupted and may break. An attempt to read
either is interrupted, after which one simply tries again, or gives an answer:
a byte, the end of the bytes, or a refusal. Only finitely many attempts are
interrupted before each answer, so trying again comes to an end. -/

namespace Brainfuck

structure Reader where
  pending : List UInt8
  /-- How many bytes may still be read before every answer is a refusal;
  `none` if the source never breaks. -/
  allowance : Option Nat
  fault : IoError
  /-- How many attempts are interrupted before the `n`-th answer. -/
  delays : Nat → Nat
  /-- Answers given so far. -/
  answered : Nat
  /-- Attempts interrupted since the last answer. -/
  waited : Nat

namespace Reader

/-- A source that gives `bytes` and then its end, without a hitch. -/
def ofBytes (bytes : List UInt8) : Reader where
  pending := bytes
  allowance := none
  fault := ⟨.other, "input fault"⟩
  delays := fun _ => 0
  answered := 0
  waited := 0

/-- The answer a source has ready, apart from any interruption. -/
def answer (r : Reader) : Except IoError (Option UInt8) :=
  if r.allowance = some 0 then .error r.fault else .ok r.pending.head?

/-- The source once its answer has been taken. -/
def advance (r : Reader) : Reader :=
  let r := { r with answered := r.answered + 1, waited := 0 }
  if r.allowance = some 0 then r
  else if r.pending.isEmpty then r
  else { r with pending := r.pending.tail, allowance := r.allowance.map (· - 1) }

/-- One attempt to read; `none` means that it was interrupted. -/
def attempt (r : Reader) : Option (Except IoError (Option UInt8)) × Reader :=
  if r.waited < r.delays r.answered then (none, { r with waited := r.waited + 1 })
  else (some r.answer, r.advance)

/-- Tries until there is an answer. -/
def read (r : Reader) : Except IoError (Option UInt8) × Reader :=
  match _h : r.attempt with
  | (some answer, r') => (answer, r')
  | (none, r') => r'.read
termination_by r.delays r.answered - r.waited
decreasing_by
  unfold attempt at _h
  split at _h
  · cases _h; simp only; omega
  · simp at _h

/-- However often it is interrupted, a read ends with the answer that was
ready, and the source has moved on by that one answer. -/
theorem read_eq (r : Reader) : r.read = (r.answer, r.advance) := by
  fun_induction read r with
  | case1 r answer r' h =>
    unfold attempt at h
    split at h <;> simp_all
  | case2 r r' h ih =>
    unfold attempt at h
    split at h
    · cases h
      simpa [answer, advance] using ih
    · simp at h

theorem pending_advance {r : Reader} (h : r.allowance ≠ some 0) :
    r.advance.pending = r.pending.tail := by
  unfold advance
  cases r.pending <;> simp [h]

theorem allowance_advance {r : Reader} (h : r.allowance = none) : r.advance.allowance = none := by
  unfold advance
  cases r.pending <;> simp [h]

end Reader

end Brainfuck
