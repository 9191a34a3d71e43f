import Brainfuck.Proofs.LoopStack

/-! What becomes of a bracket when it is executed, said in terms of its partner
in the text. Jumps lead from partner to partner in both directions; a bracket
fails, or is passed over as stray, only if it has none. -/

namespace Brainfuck.Machine

variable {σ : Type} [Terminal σ] {m m' : Machine} {io io' : σ} {o : Outcome} {e : Executed}

/-! ## Jumps -/

/-- A jump back leads from a `]` to its partner. -/
theorem Transition.repeats_to {i : Nat} (ht : Transition m io (.executed e) m' io')
    (hm : m.Tracks) (he : e.effect = .repeatedLoop i) : m.program.opening? e.ip = some i := by
  cases ht with
  | executed _ hc ha =>
    cases he
    cases ha with
    | again _ hl =>
      refine Program.opening?_eq_some_iff.mpr ⟨hc, ?_⟩
      rw [← hm.loops_eq, hl, List.head?_cons]

/-- A jump forward leads from a `[` to its partner. -/
theorem Transition.skips_to {j : Nat} (ht : Transition m io (.executed e) m' io')
    (he : e.effect = .skippedLoop j) : m.program.opening? j = some e.ip := by
  cases ht with
  | executed _ hc ha =>
    cases he
    cases ha with
    | skip _ hj =>
      rw [Program.closing?_eq_ending? hc] at hj
      exact Program.ending?_eq_some_iff.mp hj

/-! ## Brackets without a partner -/

theorem Tracks.loops_eq_nil_iff (hm : m.Tracks) (hc : m.program[m.next]? = some ']') :
    m.loops = [] ↔ m.program.opening? m.next = none := by
  rw [Program.opening?_eq_none_iff hc, hm.loops_eq]

theorem Transition.fails_opening_iff (ht : Transition m io o m' io') (hr : m.status = .running)
    (hc : m.program[m.next]? = some '[') :
    o = .failed (.unbalanced .opening m.next) ↔
      m.current = 0 ∧ m.program.ending? m.next = none := by
  rw [← Program.closing?_eq_ending? hc]
  constructor
  · intro ho
    subst ho
    cases ht with
    | failed _ hf =>
      cases hf with
      | unclosed _ h0 hj => exact ⟨h0, hj⟩
  · intro h
    obtain ⟨h0, hj⟩ := h
    have hf : m.Fails io (.unbalanced .opening m.next) io := .unclosed hc h0 hj
    exact congrArg Prod.fst (ht.step_eq.symm.trans (hf.step_eq hr))

theorem Transition.fails_closing_iff (ht : Transition m io o m' io') (hm : m.Tracks)
    (hr : m.status = .running) (hc : m.program[m.next]? = some ']') :
    o = .failed (.unbalanced .closing m.next) ↔
      m.current ≠ 0 ∧ m.program.opening? m.next = none := by
  rw [← hm.loops_eq_nil_iff hc]
  constructor
  · intro ho
    subst ho
    cases ht with
    | failed _ hf =>
      cases hf with
      | unopened _ h0 hl => exact ⟨h0, hl⟩
  · intro h
    obtain ⟨h0, hl⟩ := h
    have hf : m.Fails io (.unbalanced .closing m.next) io := .unopened hc h0 hl
    exact congrArg Prod.fst (ht.step_eq.symm.trans (hf.step_eq hr))

theorem Transition.strays_iff (ht : Transition m io o m' io') (hm : m.Tracks)
    (hr : m.status = .running) (hc : m.program[m.next]? = some ']') :
    (∃ e, o = .executed e ∧ e.effect = .strayLoopEnd) ↔
      m.current = 0 ∧ m.program.opening? m.next = none := by
  rw [← hm.loops_eq_nil_iff hc]
  constructor
  · intro h
    obtain ⟨e, rfl, he⟩ := h
    cases ht with
    | executed _ _ ha =>
      cases he
      cases ha with
      | stray h0 hl => exact ⟨h0, hl⟩
  · intro h
    obtain ⟨h0, hl⟩ := h
    have ha : m.Acts io .loopEnd .strayLoopEnd { m with ip := some m.next } io := .stray h0 hl
    exact ⟨_, congrArg Prod.fst (ht.step_eq.symm.trans (ha.step_eq hr hc)), rfl⟩

/-! ## Balanced programs -/

theorem Transition.not_unbalanced (ht : Transition m io o m' io') (hm : m.Tracks)
    (hb : m.program.Balanced) (side : Bracket) (ip : Nat) :
    o ≠ .failed (.unbalanced side ip) := by
  intro ho
  subst ho
  cases ht with
  | failed _ hf =>
    cases hf with
    | unclosed hc _ hj =>
      have hp := hb.ending?_isSome hc
      rw [← Program.closing?_eq_ending? hc, hj] at hp
      cases hp
    | unopened hc _ hl =>
      have hp := hb.opening?_isSome hc
      rw [(hm.loops_eq_nil_iff hc).mp hl] at hp
      cases hp

theorem Transition.not_stray (ht : Transition m io (.executed e) m' io') (hm : m.Tracks)
    (hb : m.program.Balanced) : e.effect ≠ .strayLoopEnd := by
  intro he
  cases ht with
  | executed _ hc ha =>
    cases he
    cases ha with
    | stray _ hl =>
      have hp := hb.opening?_isSome hc
      rw [(hm.loops_eq_nil_iff hc).mp hl] at hp
      cases hp

/-- **Both ways of finding the other end of a loop agree.** Where the stack sends
a machine back, the search forward leads to the `]` it came from; where the
search sends it forward, the scan pairs that `]` with the `[` it came from. A `[`
fails only on a zero cell and without a partner, a `]` only on a nonzero cell and
without one, and on a zero cell it is then stray. In a balanced program none of
this happens. -/
theorem Reachable.brackets_agree {source : String} (h : Reachable source m)
    (hs : m.step io = (o, m', io')) :
    (∀ e i, o = .executed e → e.effect = .repeatedLoop i → m.program.closing? i = some e.ip) ∧
    (∀ e j, o = .executed e → e.effect = .skippedLoop j → m.program.opening? j = some e.ip) ∧
    (m.status = .running → m.program[m.next]? = some '[' →
      (o = .failed (.unbalanced .opening m.next) ↔
        m.current = 0 ∧ m.program.ending? m.next = none)) ∧
    (m.status = .running → m.program[m.next]? = some ']' →
      (o = .failed (.unbalanced .closing m.next) ↔
        m.current ≠ 0 ∧ m.program.opening? m.next = none) ∧
      ((∃ e, o = .executed e ∧ e.effect = .strayLoopEnd) ↔
        m.current = 0 ∧ m.program.opening? m.next = none)) ∧
    (m.program.Balanced → (∀ side ip, o ≠ .failed (.unbalanced side ip)) ∧
      ∀ e, o = .executed e → e.effect ≠ .strayLoopEnd) := by
  have ht := step_eq_iff.mp hs
  by_cases hr : m.status = .running
  · have hm := h.tracks (by simp [hr])
    refine ⟨?_, ?_, fun _ hc => ht.fails_opening_iff hr hc,
      fun _ hc => ⟨ht.fails_closing_iff hm hr hc, ht.strays_iff hm hr hc⟩,
      fun hb => ⟨ht.not_unbalanced hm hb, ?_⟩⟩
    · intro e i ho he
      subst ho
      have hp := ht.repeats_to hm he
      rw [Program.closing?_eq_ending? (Program.opening?_bounds hp).2.2.1]
      exact Program.ending?_eq_some_iff.mpr hp
    · intro e j ho he
      subst ho
      exact ht.skips_to he
    · intro e ho
      subst ho
      exact ht.not_stray hm hb
  · -- a machine at rest executes nothing and fails at nothing
    rw [step_of_not_running hr] at hs
    cases hs
    have hx : ∀ e, Outcome.halted ≠ .executed e := by simp
    refine ⟨fun e _ ho => absurd ho (hx e), fun e _ ho => absurd ho (hx e),
      fun h => absurd h hr, fun h => absurd h hr, ?_⟩
    intro _
    exact ⟨by simp, fun e ho => absurd ho (hx e)⟩

/-- The `]` of `++[->+<]` when it comes up first. -/
theorem brackets_agree_at_repeat :
    let m := ((load "++[->+<]").run 7 Silent.mk).2.1
    let o := (m.step Silent.mk).1
    (Reachable "++[->+<]" m ∧ m.step Silent.mk = (o, (m.step Silent.mk).2)) ∧
      o = .executed ⟨7, .loopEnd, 0, 1, .repeatedLoop 2⟩ ∧
      m.program.closing? 2 = some 7 := by
  intro m o
  have h : Reachable "++[->+<]" m :=
    Reachable.load.run (r := ((load "++[->+<]").run 7 Silent.mk).1) rfl
  have hs : m.step Silent.mk = (o, (m.step Silent.mk).2) := rfl
  have ho : o = .executed ⟨7, .loopEnd, 0, 1, .repeatedLoop 2⟩ := by decide +kernel
  obtain ⟨ha, -⟩ := Reachable.brackets_agree h hs
  exact ⟨⟨h, hs⟩, ho, ha _ 2 ho rfl⟩

end Brainfuck.Machine
