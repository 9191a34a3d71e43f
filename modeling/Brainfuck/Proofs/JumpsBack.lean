import Brainfuck.Proofs.Brackets
import Brainfuck.Proofs.Course

/-! How long a run can be. Every instruction but a jump back leads further on in the
text, a skip as well, and a jump back does not lead behind the end. So the position of
the machine runs through the text once for the beginning of the run and once for every
jump back, and a run that jumps back only finitely often comes to an end. -/

namespace Brainfuck

/-- Whether the machine went back to the beginning of a loop. -/
def Effect.isJumpBack : Effect → Bool
  | .repeatedLoop _ => true
  | _ => false

/-- How many of the instructions are jumps back. -/
def jumpsBack (es : List Executed) : Nat := es.countP (·.effect.isJumpBack)

namespace Machine

variable {σ : Type} [Terminal σ] {m m' : Machine} {io io' : σ} {r : Ending} {e : Executed}
  {es : List Executed}

/-! ## One step -/

theorem Transition.ip_eq (ht : Transition m io (.executed e) m' io') : e.ip = m.next := by
  cases ht with
  | executed => rfl

/-- Without a jump back the next position lies further on. -/
theorem Transition.next_lt_next (ht : Transition m io (.executed e) m' io')
    (he : e.effect.isJumpBack = false) : m.next < m'.next := by
  cases ht with
  | executed _ _ ha =>
    cases ha with
    | right | left | increment | decrement | output | input | enter | exit | stray =>
      exact Nat.lt_succ_self m.next
    | skip _ hj => exact Nat.lt_succ_of_lt (Program.closing?_bounds hj).1
    | again => cases he

theorem Transition.next_le_size (ht : Transition m io (.executed e) m' io') (hm : m.Tracks) :
    m'.next ≤ m.program.size := by
  cases ht with
  | executed _ hc ha =>
    rw [← ha.program_eq]
    exact ha.next_le hc hm

/-- An instruction stands in the text, and so does what it jumps to, on the right side of
it. -/
structure Within (size : Nat) (e : Executed) : Prop where
  ip_lt : e.ip < size
  skips : ∀ j, e.effect = .skippedLoop j → e.ip < j ∧ j < size
  repeats : ∀ i, e.effect = .repeatedLoop i → i < e.ip

theorem Transition.within (ht : Transition m io (.executed e) m' io') (hm : m.Tracks) :
    Within m.program.size e where
  ip_lt := ht.ip_eq ▸ ht.next_lt
  skips := by
    intro j he
    have hj := Program.opening?_bounds (ht.skips_to he)
    exact ⟨hj.1, hj.2.1⟩
  repeats := fun i he => (Program.opening?_bounds (ht.repeats_to hm he)).1

theorem Transition.tracks_of_executed (ht : Transition m io (.executed e) m' io')
    (hm : m.Tracks) : m'.Tracks :=
  ht.tracks hm (by simp [ht.running_of_executed])

/-! ## Runs -/

theorem Course.within (hc : m.Course io es r m' io') (hm : m.Tracks) :
    ∀ e ∈ es, Within m.program.size e := by
  induction hc with
  | paused | halted | failed => exact List.forall_mem_nil _
  | executed ht _ ih =>
    intro e he
    rcases List.mem_cons.mp he with rfl | he
    · exact ht.within hm
    · exact ht.program_eq ▸ ih (ht.tracks_of_executed hm) e he

/-- A jump back gives as many positions again as the text has, and every other
instruction uses up one at least. -/
theorem Course.length_add_next_le (hc : m.Course io es r m' io') (hm : m.Tracks)
    (hn : m.next ≤ m.program.size) :
    es.length + m.next ≤ m.program.size * (1 + jumpsBack es) := by
  induction hc with
  | paused | halted | failed => simpa [jumpsBack] using hn
  | @executed m m₁ _ _ _ _ e es _ ht _ ih =>
    have hrest := ih (ht.tracks_of_executed hm) (ht.program_eq ▸ ht.next_le_size hm)
    have hlt := ht.next_lt
    rw [ht.program_eq] at hrest
    rw [List.length_cons, jumpsBack, List.countP_cons, ← jumpsBack]
    cases he : e.effect.isJumpBack with
    | false =>
      have hnext := ht.next_lt_next he
      simp only [Bool.false_eq_true, if_false, Nat.add_zero]
      omega
    | true =>
      rw [if_pos rfl, ← Nat.add_assoc, Nat.mul_succ]
      omega

/-- From the beginning of a run, positions rise up to the first jump back. -/
theorem Course.rises (hc : m.Course io es r m' io') {stretch : List Executed}
    (hs : stretch <+: es) (hb : ∀ e ∈ stretch.dropLast, e.effect.isJumpBack = false) :
    (∀ e ∈ stretch, m.next ≤ e.ip) ∧ (stretch.map (·.ip)).Pairwise (· < ·) := by
  induction hc generalizing stretch with
  | paused | halted | failed =>
    rw [List.prefix_nil.mp hs]
    simp
  | executed ht _ ih =>
    rcases List.prefix_cons_iff.mp hs with rfl | ⟨rest, rfl, hrest⟩
    · simp
    · cases rest with
      | nil => simp [ht.ip_eq]
      | cons e₁ rest =>
        rw [List.dropLast_cons_cons] at hb
        obtain ⟨hle, hrises⟩ := ih hrest fun e he => hb e (List.mem_cons_of_mem _ he)
        have hlt := ht.next_lt_next (hb _ List.mem_cons_self)
        rw [List.forall_mem_cons, List.map_cons, List.pairwise_cons, List.forall_mem_map]
        refine ⟨⟨Nat.le_of_eq ht.ip_eq.symm, fun e he => ?_⟩, fun e he => ?_, hrises⟩
        · exact Nat.le_of_lt (Nat.lt_of_lt_of_le hlt (hle e he))
        · exact ht.ip_eq ▸ Nat.lt_of_lt_of_le hlt (hle e he)

/-- Positions rise between jumps back, wherever in the run. -/
theorem Course.rises_between (hc : m.Course io es r m' io') {stretch : List Executed}
    (hs : stretch <:+: es) (hb : ∀ e ∈ stretch.dropLast, e.effect.isJumpBack = false) :
    (stretch.map (·.ip)).Pairwise (· < ·) := by
  induction hc with
  | paused | halted | failed =>
    rw [List.infix_nil.mp hs]
    exact .nil
  | executed ht hrest ih =>
    rcases List.infix_cons_iff.mp hs with hs | hs
    · exact ((Course.executed ht hrest).rises hs hb).2
    · exact ih hs

theorem Course.next_le (hc : m.Course io es r m' io') (hr : r = .paused)
    (hb : ∀ e ∈ es, e.effect.isJumpBack = false) : m.next ≤ m'.next := by
  induction hc with
  | paused => exact Nat.le_refl _
  | halted | failed => cases hr
  | executed ht _ ih =>
    obtain ⟨he, hes⟩ := List.forall_mem_cons.mp hb
    exact Nat.le_trans (Nat.le_of_lt (ht.next_lt_next he)) (ih hr hes)

/-- What was executed since the last jump back lies in front of the next position. -/
theorem Course.ip_lt_next (hc : m.Course io es r m' io') (hr : r = .paused)
    {stretch : List Executed} (hs : stretch <:+ es)
    (hb : ∀ e ∈ stretch, e.effect.isJumpBack = false) : ∀ e ∈ stretch, e.ip < m'.next := by
  induction hc generalizing stretch with
  | paused =>
    rw [List.suffix_nil.mp hs]
    exact List.forall_mem_nil _
  | halted | failed => cases hr
  | executed ht hrest ih =>
    rcases List.suffix_cons_iff.mp hs with rfl | hs
    · obtain ⟨he, hes⟩ := List.forall_mem_cons.mp hb
      refine List.forall_mem_cons.mpr ⟨?_, ih hr List.suffix_rfl hes⟩
      exact ht.ip_eq ▸ Nat.lt_of_lt_of_le (ht.next_lt_next he) (hrest.next_le hr hes)
    · exact ih hr hs hb

theorem Transition.failure_ip_eq {f : Failure} (ht : Transition m io (.failed f) m' io') :
    f.ip = m.next := by
  cases ht with
  | failed _ hf => exact hf.ip_eq
  | endRefused => rfl

/-- A machine that does not run executes nothing. -/
theorem Course.eq_nil_of_not_running (hc : m.Course io es r m' io')
    (hs : m.status ≠ .running) : es = [] := by
  cases hc with
  | paused | halted | failed => rfl
  | executed ht => exact absurd ht.running hs

theorem Reachable.course_within {source : String} (h : Reachable source m)
    (hc : m.Course io es r m' io') :
    (∀ e ∈ es, Within m.program.size e) ∧ es.length ≤ m.program.size * (1 + jumpsBack es) := by
  by_cases hs : m.status = .running
  · have hm := h.tracks (by simp [hs])
    have hle := hc.length_add_next_le hm (h.next_le hs)
    exact ⟨hc.within hm, by omega⟩
  · rw [hc.eq_nil_of_not_running hs]
    simp

/-- **Only jumps back make a run long.** In a run of any reachable machine, on any
terminal, each instruction lies in the program, a skip leads forward to a position of the
program, and a jump back leads back. Between jumps back positions rise strictly, up to
the one that fails if there is one, so the run has no more instructions than the program
has characters, once and once again for each jump back; and if the number of jumps back
stays bounded, the run comes to an end. -/
theorem Reachable.length_le_of_jumpsBack {source : String} (h : Reachable source m) (io : σ) :
    let size := m.program.size
    let executed (n : Nat) := (m.trace n io).1.toList
    (∀ n, ∀ e ∈ executed n, e.ip < size ∧
      (∀ j, e.effect = .skippedLoop j → e.ip < j ∧ j < size) ∧
      ∀ i, e.effect = .repeatedLoop i → i < e.ip) ∧
    (∀ n stretch, stretch <:+: executed n →
      (∀ e ∈ stretch.dropLast, ∀ i, e.effect ≠ .repeatedLoop i) →
      (stretch.map (·.ip)).Pairwise (· < ·)) ∧
    (∀ n f stretch, (m.trace n io).2.1 = .failed f → stretch <:+ executed n →
      (∀ e ∈ stretch, ∀ i, e.effect ≠ .repeatedLoop i) → ∀ e ∈ stretch, e.ip < f.ip) ∧
    (∀ n, (executed n).length ≤ size * (1 + jumpsBack (executed n))) ∧
    ∀ bound, (∀ n, jumpsBack (executed n) ≤ bound) →
      (m.trace (size * (1 + bound) + 1) io).2.1 ≠ .paused := by
  intro size executed
  have hc (n : Nat) := course_trace n m io
  have hjump (e : Executed) (he : ∀ i, e.effect ≠ .repeatedLoop i) :
      e.effect.isJumpBack = false := by
    cases hj : e.effect with
    | repeatedLoop i => exact absurd hj (he i)
    | _ => rfl
  refine ⟨fun n e he => ?_, fun n stretch hs hb => ?_, fun n f stretch hf hs hb => ?_,
    fun n => (h.course_within (hc n)).2, fun bound hbound hpaused => ?_⟩
  · have hw := (h.course_within (hc n)).1 e he
    exact ⟨hw.ip_lt, hw.skips, hw.repeats⟩
  · exact (hc n).rises_between hs fun e he => hjump e (hb e he)
  · obtain ⟨mid, u, hmid, ht⟩ := (hc n).at_failure hf
    rw [ht.failure_ip_eq]
    exact hmid.ip_lt_next rfl hs fun e he => hjump e (hb e he)
  · -- a run that has only paused executed as many instructions as it was given steps
    have hlength := size_trace_of_paused hpaused
    have hle := (h.course_within (hc (size * (1 + bound) + 1))).2
    have hmul := Nat.mul_le_mul_left size
      (Nat.add_le_add_left (hbound (size * (1 + bound) + 1)) 1)
    rw [Array.length_toList, hlength] at hle
    exact absurd (Nat.le_trans hle hmul) (Nat.not_succ_le_self _)

/-- A loop that is repeated twice, between stray brackets: no longer run brings a third
jump back, so the run has come to an end. -/
theorem length_le_of_jumpsBack_past_strays :
    ∃ (source : String) (m : Machine), (source = "]+++[->[[]]<]]" ∧ m = load source) ∧
      (Reachable source m ∧ ∀ n, jumpsBack (m.trace n Silent.mk).1.toList ≤ 2) ∧
      (m.trace 40 Silent.mk).1.toList.length ≤ m.program.size * (1 + 2) ∧
      (m.trace (m.program.size * (1 + 2) + 1) Silent.mk).2.1 ≠ .paused := by
  obtain ⟨source, hsource⟩ : ∃ source, source = "]+++[->[[]]<]]" := ⟨_, rfl⟩
  have hend : ((load source).trace 22 Silent.mk).2.1 = .halted := by
    rw [hsource]
    decide +kernel
  have hfew : ∀ n ≤ 22, jumpsBack ((load source).trace n Silent.mk).1.toList ≤ 2 := by
    rw [hsource]
    decide +kernel
  have hbound (n : Nat) : jumpsBack ((load source).trace n Silent.mk).1.toList ≤ 2 := by
    rcases Nat.le_total n 22 with hn | hn
    · exact hfew n hn
    · have hlast := hfew 22 (Nat.le_refl 22)
      rcases htr : (load source).trace 22 Silent.mk with ⟨es, r, m', io⟩
      rw [htr] at hend hlast
      obtain rfl : r = .halted := hend
      rwa [trace_of_le htr nofun hn]
  obtain ⟨-, -, -, hlength, hends⟩ := Reachable.length_le_of_jumpsBack .load Silent.mk
  exact ⟨source, load source, ⟨hsource, rfl⟩, ⟨.load, hbound⟩, Nat.le_trans (hlength 40)
    (Nat.mul_le_mul_left _ (Nat.add_le_add_left (hbound 40) 1)), hends 2 hbound⟩

end Machine

end Brainfuck
