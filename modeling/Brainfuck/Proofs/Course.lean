import Brainfuck.Proofs.Transition

/-! Runs as a relation. What a bounded run did is a course of transitions, the
last of which may stop the machine, so what holds of a run is shown by going along
its course. -/

namespace Brainfuck

/-- A run of at most `n` steps can come to rest in this way with `k` instructions
executed: a pause uses the bound up, an end needs a step of its own. -/
def Ending.Takes (r : Ending) (k n : Nat) : Prop :=
  match r with
  | .paused => k = n
  | _ => k < n

theorem Ending.takes_succ {r : Ending} {k n : Nat} : r.Takes (k + 1) (n + 1) ↔ r.Takes k n := by
  cases r <;> simp [Ending.Takes]

theorem Ending.takes_of_ne_paused {r : Ending} {k n : Nat} (hr : r ≠ .paused) (h : k < n) :
    r.Takes k n := by
  cases r with
  | paused => exact absurd rfl hr
  | halted | failed => exact h

theorem Ending.Takes.le {r : Ending} {k n : Nat} (h : r.Takes k n) : k ≤ n := by
  cases r with
  | paused => exact Nat.le_of_eq h
  | halted | failed => exact Nat.le_of_lt h

namespace Machine

variable {σ : Type} [Terminal σ] {m m₁ m' : Machine} {io io₁ io' : σ} {r : Ending} {o : Outcome}
  {es : List Executed}

/-- `m.Course io es r m' io'`: on the terminal `io` the machine `m` executes `es`,
then comes to rest as `r` says, and `m'` and `io'` are what is left. -/
inductive Course : Machine → σ → List Executed → Ending → Machine → σ → Prop where
  | paused (m : Machine) (io : σ) : Course m io [] .paused m io
  | executed {m m₁ m' : Machine} {io io₁ io' : σ} {e : Executed} {es : List Executed} {r : Ending}
      (ht : Transition m io (.executed e) m₁ io₁) (h : Course m₁ io₁ es r m' io') :
      Course m io (e :: es) r m' io'
  | halted {m m' : Machine} {io io' : σ} (ht : Transition m io .halted m' io') :
      Course m io [] .halted m' io'
  | failed {m m' : Machine} {io io' : σ} {f : Failure}
      (ht : Transition m io (.failed f) m' io') : Course m io [] (.failed f) m' io'

theorem trace_course {n : Nat} {es : Array Executed} (h : m.trace n io = (es, r, m', io')) :
    m.Course io es.toList r m' io' := by
  induction n generalizing m io es with
  | zero =>
    cases h
    exact .paused _ _
  | succ n ih =>
    rw [trace_succ] at h
    split at h
    · rename_i e m₁ io₁ hs
      obtain ⟨hes, hrest⟩ := Prod.mk.inj h
      have hc : m₁.Course io₁ (m₁.trace n io₁).1.toList r m' io' := ih (by rw [← hrest])
      rw [← hes, Array.toList_append]
      exact .executed (step_eq_iff.mp hs) hc
    · rename_i hs
      cases h
      exact .halted (step_eq_iff.mp hs)
    · rename_i hs
      cases h
      exact .failed (step_eq_iff.mp hs)

theorem Transition.running_of_executed {e : Executed} (ht : Transition m io (.executed e) m' io') :
    m'.status = .running := by
  cases ht with
  | executed hs _ ha => rw [ha.status_eq, hs]

theorem Transition.running {e : Executed} (ht : Transition m io (.executed e) m' io') :
    m.status = .running := by
  cases ht with
  | executed hs => exact hs

theorem Transition.next_lt {e : Executed} (ht : Transition m io (.executed e) m' io') :
    m.next < m.program.size := by
  cases ht with
  | executed _ hc => exact (Array.getElem?_eq_some_iff.mp hc).1

/-- A machine that does not run stays what it is. -/
theorem Course.eq_of_not_running (hc : m.Course io es r m' io') (hs : m.status ≠ .running) :
    m' = m := by
  cases hc with
  | paused => rfl
  | executed ht | failed ht => cases ht.step_eq.symm.trans (step_of_not_running hs io)
  | halted ht =>
    cases ht.step_eq.symm.trans (step_of_not_running hs io)
    rfl

theorem course_trace (n : Nat) (m : Machine) (io : σ) :
    m.Course io (m.trace n io).1.toList (m.trace n io).2.1 (m.trace n io).2.2.1
      (m.trace n io).2.2.2 :=
  trace_course rfl

theorem Transition.not_running_of_ended (ht : Transition m io o m' io')
    (ho : ∀ e, o ≠ .executed e) : m'.status ≠ .running := by
  cases ht with
  | idle hs => exact hs
  | executed => exact absurd rfl (ho _)
  | failed | ended | endRefused => exact nofun

theorem Course.status_of_paused (hc : m.Course io es r m' io') (hr : r = .paused) :
    m'.status = m.status := by
  induction hc with
  | paused => rfl
  | executed ht _ ih => rw [ih hr, ht.running_of_executed, ht.running]
  | halted | failed => cases hr

/-- A course that comes to an end leaves a machine that has stopped. -/
theorem Course.not_running (hc : m.Course io es r m' io') (hr : r ≠ .paused) :
    m'.status ≠ .running := by
  induction hc with
  | paused => exact absurd rfl hr
  | executed _ _ ih => exact ih hr
  | halted ht | failed ht => exact ht.not_running_of_ended (by simp)

theorem Reachable.course {source : String} (h : Reachable source m)
    (hc : m.Course io es r m' io') : Reachable source m' := by
  induction hc with
  | paused => exact h
  | executed ht _ ih => exact ih (h.step ht.step_eq)
  | halted ht | failed ht => exact h.step ht.step_eq

/-! ## Programs and failures -/

theorem Course.program_eq (hc : m.Course io es r m' io') : m'.program = m.program := by
  induction hc with
  | paused => rfl
  | executed ht _ ih => rw [ih, ht.program_eq]
  | halted ht | failed ht => exact ht.program_eq

theorem Transition.status_failed_iff (ht : Transition m io o m' io') :
    m'.status = .failed ↔ m.status = .failed ∨ ∃ f, o = .failed f ∧ f.ip < m.program.size := by
  cases ht with
  | idle => simp
  | executed hs _ ha => simp [ha.status_eq, hs]
  | failed hs hf => simp [stopped, hf.ip_eq, hf.next_lt]
  | ended hs => simp [stopped, hs]
  | endRefused hs hp => simp [stopped, hs, Failure.ip, Array.getElem?_eq_none_iff.mp hp]

/-- A course ends with a machine that has failed if it began with one or was stopped
by an error at an instruction. -/
theorem Course.status_failed_iff (hc : m.Course io es r m' io') :
    m'.status = .failed ↔ m.status = .failed ∨ ∃ f, r = .failed f ∧ f.ip < m.program.size := by
  induction hc with
  | paused => simp
  | executed ht _ ih =>
    -- an instruction neither finds a machine that has failed nor leaves one
    rw [ih, ht.status_failed_iff, ht.program_eq]
    simp
  | halted ht | failed ht => simp [ht.status_failed_iff]

/-- A course that fails comes to the step that fails. -/
theorem Course.at_failure {f : Failure} (hc : m.Course io es r m' io') (hr : r = .failed f) :
    ∃ mid u, m.Course io es .paused mid u ∧ Transition mid u (.failed f) m' io' := by
  induction hc with
  | paused | halted => cases hr
  | executed ht _ ih =>
    obtain ⟨mid, u, hc, hf⟩ := ih hr
    exact ⟨mid, u, .executed ht hc, hf⟩
  | @failed m _ io _ _ ht =>
    cases hr
    exact ⟨m, io, .paused m io, ht⟩

/-! ## Steps of a course -/

theorem trace_of_executed {e : Executed} (ht : Transition m io (.executed e) m₁ io₁) (n : Nat) :
    m.trace (n + 1) io = (#[e] ++ (m₁.trace n io₁).1, (m₁.trace n io₁).2) := by
  rw [trace_succ, ht.step_eq]

/-- The instruction number `k` of a course is what the machine executes once `k`
steps have been taken. -/
theorem Course.at_step {k : Nat} {e : Executed} (hc : m.Course io es r m' io')
    (hk : es[k]? = some e) :
    ∃ mid u m₁ u₁, m.trace k io = ((es.take k).toArray, .paused, mid, u) ∧
      Transition mid u (.executed e) m₁ u₁ ∧
      m.trace (k + 1) io = ((es.take (k + 1)).toArray, .paused, m₁, u₁) := by
  induction hc generalizing k with
  | paused | halted | failed => simp at hk
  | @executed m m₁ _ io io₁ _ _ _ _ ht _ ih =>
    have htr := trace_of_executed ht
    cases k with
    | zero =>
      cases hk
      exact ⟨m, io, m₁, io₁, rfl, ht, htr 0⟩
    | succ k =>
      obtain ⟨mid, u, m₂, u₂, hmid, ht₂, hnext⟩ := ih hk
      exact ⟨mid, u, m₂, u₂, by simp [htr, hmid], ht₂, by simp [htr, hnext]⟩

/-! ## Courses and bounds -/

theorem trace_takes (n : Nat) (m : Machine) (io : σ) :
    (m.trace n io).2.1.Takes (m.trace n io).1.size n := by
  induction n generalizing m io with
  | zero => rfl
  | succ n ih =>
    rw [trace_succ]
    split
    · rename_i m₁ io₁ _
      rw [Array.size_append, Array.size_singleton, Nat.add_comm]
      exact Ending.takes_succ.mpr (ih m₁ io₁)
    · exact Nat.succ_pos n
    · exact Nat.succ_pos n

theorem Course.trace_eq {n : Nat} (hc : m.Course io es r m' io') (hn : r.Takes es.length n) :
    m.trace n io = (es.toArray, r, m', io') := by
  induction hc generalizing n with
  | paused =>
    cases hn
    rfl
  | executed ht _ ih =>
    cases n with
    | zero => exact absurd hn.le (Nat.not_succ_le_zero _)
    | succ n =>
      rw [trace_of_executed ht, ih (Ending.takes_succ.mp hn), List.append_toArray]
      rfl
  | halted ht | failed ht =>
    cases n with
    | zero => exact absurd hn (Nat.not_lt_zero _)
    | succ n => rw [trace_succ, ht.step_eq]

/-- The runs of a machine are its courses, each under the bounds that it fits. -/
theorem trace_eq_iff {n : Nat} :
    m.trace n io = (es.toArray, r, m', io') ↔ m.Course io es r m' io' ∧ r.Takes es.length n := by
  constructor
  · intro h
    have htakes := trace_takes n m io
    rw [h] at htakes
    exact ⟨trace_course h, htakes⟩
  · intro ⟨hc, hn⟩
    exact hc.trace_eq hn

/-- A run that has come to an end is the same under any higher bound. -/
theorem trace_of_le {n n' : Nat} {es : Array Executed} (h : m.trace n io = (es, r, m', io'))
    (hr : r ≠ .paused) (hn : n ≤ n') : m.trace n' io = (es, r, m', io') := by
  obtain ⟨es⟩ := es
  obtain ⟨hc, htakes⟩ := trace_eq_iff.mp h
  refine hc.trace_eq ?_
  cases r with
  | paused => exact absurd rfl hr
  | halted | failed => exact Nat.lt_of_lt_of_le htakes hn

/-! ## Runs in two parts -/

/-- What comes after a pause is the rest of one course. -/
theorem Course.append {es' : List Executed} (hc : m.Course io es r m₁ io₁) (hr : r = .paused)
    {r' : Ending} (hc' : m₁.Course io₁ es' r' m' io') : m.Course io (es ++ es') r' m' io' := by
  induction hc with
  | paused => exact hc'
  | executed ht _ ih => exact .executed ht (ih hr hc')
  | halted | failed => cases hr

theorem size_trace_of_paused {n : Nat} (h : (m.trace n io).2.1 = .paused) :
    (m.trace n io).1.size = n := by
  have htakes := trace_takes n m io
  rwa [h] at htakes

theorem trace_add {a : Nat} {es : Array Executed} (h : m.trace a io = (es, .paused, m', io'))
    (b : Nat) :
    m.trace (a + b) io = (es ++ (m'.trace b io').1, (m'.trace b io').2) := by
  induction a generalizing m io es with
  | zero =>
    cases h
    simp
  | succ a ih =>
    rw [trace_succ] at h
    rw [Nat.succ_add, trace_succ]
    split at h
    · rename_i e m₁ io₁ hs
      obtain ⟨hes, hrest⟩ := Prod.mk.inj h
      have htr : m₁.trace a io₁ = ((m₁.trace a io₁).1, .paused, m', io') := by rw [← hrest]
      simp only [ih htr, ← hes, Array.append_assoc]
    · cases h
    · cases h

end Machine

end Brainfuck
