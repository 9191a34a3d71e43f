import Brainfuck.Proofs.Course

/-! Machines in lockstep. Two machines may do the same thing at every step and only
call it by other names, as when one of them counts positions or cells from somewhere
else. If each step leads to two machines that stand in the same relation again, then
runs of any length are the same in both, but for the names. -/

namespace Brainfuck

/-- Other names for what a machine executes and for what stops it. -/
structure Retelling where
  executed : Executed → Executed
  failure : Failure → Failure

namespace Retelling

def outcome (ρ : Retelling) : Outcome → Outcome
  | .executed e => .executed (ρ.executed e)
  | .halted => .halted
  | .failed f => .failed (ρ.failure f)

def ending (ρ : Retelling) : Ending → Ending
  | .paused => .paused
  | .halted => .halted
  | .failed f => .failed (ρ.failure f)

theorem takes_ending {ρ : Retelling} {r : Ending} {k n : Nat} :
    (ρ.ending r).Takes k n ↔ r.Takes k n := by
  cases r <;> rfl

end Retelling

namespace Machine

/-- Of two machines related by `R`, on any one terminal, the second does what the first
does, as `ρ` retells it, and leaves the terminal as the first does. -/
structure Lockstep (ρ : Retelling) (R : Machine → Machine → Prop) : Prop where
  step {σ : Type} [Terminal σ] {m m₂ m' : Machine} {io io' : σ} {o : Outcome} (h : R m m₂)
    (ht : Transition m io o m' io') :
    ∃ m₂', Transition m₂ io (ρ.outcome o) m₂' io' ∧ R m' m₂'

variable {σ : Type} [Terminal σ] {m m₂ m' : Machine} {io io' : σ} {r : Ending}
  {ρ : Retelling} {R : Machine → Machine → Prop}

theorem Lockstep.course {es : List Executed} (hR : Lockstep ρ R) (h : R m m₂)
    (hc : m.Course io es r m' io') :
    ∃ m₂', m₂.Course io (es.map ρ.executed) (ρ.ending r) m₂' io' ∧ R m' m₂' := by
  induction hc generalizing m₂ with
  | paused => exact ⟨m₂, .paused _ _, h⟩
  | executed ht _ ih =>
    obtain ⟨m₃, ht₂, h₃⟩ := hR.step h ht
    obtain ⟨m₂', hc₂, h'⟩ := ih h₃
    exact ⟨m₂', .executed ht₂ hc₂, h'⟩
  | halted ht =>
    obtain ⟨m₂', ht₂, h'⟩ := hR.step h ht
    exact ⟨m₂', .halted ht₂, h'⟩
  | failed ht =>
    obtain ⟨m₂', ht₂, h'⟩ := hR.step h ht
    exact ⟨m₂', .failed ht₂, h'⟩

/-- Bounded runs in lockstep. -/
theorem Lockstep.trace {n : Nat} {es : Array Executed} (hR : Lockstep ρ R) (h : R m m₂)
    (htr : m.trace n io = (es, r, m', io')) :
    ∃ m₂', m₂.trace n io = (es.map ρ.executed, ρ.ending r, m₂', io') ∧ R m' m₂' := by
  obtain ⟨es⟩ := es
  obtain ⟨hc, hn⟩ := trace_eq_iff.mp htr
  obtain ⟨m₂', hc₂, h'⟩ := hR.course h hc
  refine ⟨m₂', ?_, h'⟩
  rw [hc₂.trace_eq (by rwa [List.length_map, Retelling.takes_ending]), List.map_toArray]

end Machine

end Brainfuck
