import Brainfuck.Proofs.Calls
import Brainfuck.Proofs.LoopStack

/-! How a machine stops. An error changes nothing but the instruction pointer and the
status: whatever an instruction had begun, the memory and the open loops are those of
the machine before. The status says where the machine stands and what its calls were
told, and after an error or the end of the program nothing changes any more. -/

namespace Brainfuck.Machine

variable {σ : Type} [Terminal σ] {m m' : Machine} {io io' : σ} {o : Outcome} {f : Failure}

/-! ## What an error leaves behind -/

/-- The machine that an error leaves behind: only its pointer and its status have
changed, and the status tells an instruction from the end of the program. -/
def failedAt (m : Machine) (f : Failure) : Machine :=
  { m with ip := some f.ip, status := if f.ip < m.program.size then .failed else .terminated }

theorem Transition.eq_failedAt (ht : Transition m io (.failed f) m' io') : m' = m.failedAt f := by
  cases ht with
  | failed _ hf => rw [failedAt, hf.ip_eq, if_pos hf.next_lt, stopped]
  | endRefused _ hp =>
    have hge : ¬ m.next < m.program.size := Nat.not_lt.mpr (Array.getElem?_eq_none_iff.mp hp)
    rw [failedAt, Failure.ip, if_neg hge, stopped]

/-- Behind the program only its closing line can fail. -/
theorem Transition.refused_of_size_le (ht : Transition m io (.failed f) m' io')
    (h : m.program.size ≤ f.ip) : ∃ e, f = .io e f.ip ∧ endLine io = (.error e, io') := by
  cases ht with
  | failed _ hf =>
    rw [hf.ip_eq] at h
    exact absurd hf.next_lt (Nat.not_lt.mpr h)
  | @endRefused _ e _ _ he => exact ⟨e, rfl, he⟩

/-! ## The status -/

/-- Where a machine stands, by its status. -/
def Stands (m : Machine) : Prop :=
  match m.status with
  | .running => m.next ≤ m.program.size
  | .terminated => m.ip = some m.program.size
  | .failed => ∃ i, m.ip = some i ∧ i < m.program.size

theorem Reachable.stands {source : String} (h : Reachable source m) : m.Stands := by
  induction h with
  | load => exact Nat.zero_le _
  | @step _ _ m _ _ _ _ h hstep ih =>
    have hnext := (h.step hstep).next_le
    cases step_eq_iff.mp hstep with
    | idle => exact ih
    | executed hs _ ha =>
      have hs' := ha.status_eq.trans hs
      rw [Stands, hs']
      exact hnext hs'
    | failed _ hf => exact ⟨m.next, rfl, hf.next_lt⟩
    | ended hs hp | endRefused hs hp =>
      show some m.next = some m.program.size
      rw [Nat.le_antisymm (h.next_le hs) (Array.getElem?_eq_none_iff.mp hp)]

theorem Stands.terminated_iff (h : m.Stands) :
    m.status = .terminated ↔ m.ip = some m.program.size := by
  unfold Stands at h
  split at h <;> rename_i hs
  · refine ⟨fun ht => by simp [hs] at ht, fun hip => ?_⟩
    rw [next, hip] at h
    exact absurd h (Nat.not_succ_le_self _)
  · simp [hs, h]
  · obtain ⟨i, hip, hlt⟩ := h
    simp [hs, hip, Nat.ne_of_lt hlt]

/-! ## Calls -/

/-- `Called source answers m`: the calls made of the machine loaded from `source` were
answered by `answers` and led to `m`. Each may have had a terminal of its own. -/
inductive Called (source : String) : List Answer → Machine → Prop where
  | load : Called source [] (load source)
  | call {σ : Type} [Terminal σ] {answers : List Answer} {m : Machine} (c : Call) (io : σ)
      (h : Called source answers m) :
      Called source (answers ++ [(m.call c io).1]) (m.call c io).2.1

variable {source : String} {answers : List Answer}

theorem Called.reachable (h : Called source answers m) : Reachable source m := by
  induction h with
  | load => exact .load
  | call c io _ ih =>
    obtain ⟨τ, _, t, t', hc⟩ := exists_course c _ io
    exact ih.course hc

theorem Called.status_failed_iff (h : Called source answers m) :
    m.status = .failed ↔
      ∃ a ∈ answers, ∃ f, a.verdict = .failed f ∧ f.ip < m.program.size := by
  induction h with
  | load => simp [Machine.load]
  | @call _ _ answers m c io h ih =>
    obtain ⟨τ, _, t, t', hc⟩ := exists_course c m io
    simp only [hc.status_failed_iff, ih, hc.program_eq, List.mem_append, List.mem_singleton,
      or_and_right, exists_or, exists_eq_left]

/-- **An error leaves all as it was, and a stop is for good.** Take a program and any
calls of it, however they mix and wherever they went wrong. A step that fails changes
the pointer, which is now the error's, and the status, and not the memory or the open
loops; an error behind the program is that of the closing line. The machine has
terminated if and only if it stands at the end of its program, and failed if and only
if a call was told of an error at an instruction. Once it does not run, further calls
change nothing in it and nothing at the terminal: a step halts, a run is over, and a
table is a heading. -/
theorem Called.stops_unchanged (h : Called source answers m) :
    (∀ {σ : Type} [Terminal σ] (io io' : σ) (f : Failure) (m' : Machine),
      m.step io = (.failed f, m', io') →
        m.status = .running ∧ f.ip ≤ m.program.size ∧ m' = m.failedAt f ∧
          (f.ip = m.program.size → ∃ e, f = .io e f.ip ∧ endLine io = (.error e, io'))) ∧
    (m.status = .terminated ↔ m.ip = some m.program.size) ∧
    (m.status = .failed ↔
      ∃ a ∈ answers, ∃ f, a.verdict = .failed f ∧ f.ip < m.program.size) ∧
    (m.status = .running ↔ m.ip ≠ some m.program.size ∧
      ∀ a ∈ answers, ∀ f, a.verdict = .failed f → m.program.size ≤ f.ip) ∧
    (m.status ≠ .running → ∀ {σ : Type} [Terminal σ] (calls : List Call) (io : σ),
      m.serve calls io = (calls.map Call.idle, m, io)) := by
  have hterm := h.reachable.stands.terminated_iff
  have hfail := h.status_failed_iff
  refine ⟨?_, hterm, hfail, ?_, fun hs _ _ calls io => serve_of_not_running hs calls io⟩
  · intro σ _ io io' f m' hstep
    have ht := step_eq_iff.mp hstep
    have hs : m.status = .running := by
      refine Decidable.byContradiction fun hs => ?_
      rw [step_of_not_running hs] at hstep
      cases hstep
    refine ⟨hs, ?_, ht.eq_failedAt, fun hip => ht.refused_of_size_le (Nat.le_of_eq hip.symm)⟩
    have hle := h.reachable.next_le hs
    cases ht with
    | failed _ hf => rwa [hf.ip_eq]
    | endRefused => exact hle
  · have hnot : m.status = .running ↔ m.status ≠ .terminated ∧ m.status ≠ .failed := by
      cases m.status <;> simp
    rw [hnot, ne_eq, hterm, ne_eq, hfail]
    simp only [not_exists, not_and, Nat.not_lt]

/-- An unknown command inside a loop, which stays open, behind a step and a run. The
calls after it find the machine as the error left it. -/
theorem stops_unchanged_at_unknown_command :
    let f := Failure.invalidCommand 'x' 3
    let calls := [.step, .run 3, .table 2 none]
    ∃ answers m, (Called "+[>x<]" answers m ∧ (m.step Silent.mk).1 = .failed f) ∧
      m.step Silent.mk = (.failed f, m.failedAt f, Silent.mk) ∧ (m.failedAt f).status = .failed ∧
      (m.failedAt f).serve calls Silent.mk = (calls.map Call.idle, m.failedAt f, Silent.mk) := by
  intro f calls
  obtain ⟨answers, m, h, hf, hs⟩ : ∃ answers m, Called "+[>x<]" answers m ∧
      (m.step Silent.mk).1 = .failed f ∧ (m.failedAt f).status = .failed :=
    ⟨_, _, (Called.load.call .step Silent.mk).call (.run 2) Silent.mk, by decide +kernel, rfl⟩
  have hstep : m.step Silent.mk = (.failed f, (m.step Silent.mk).2.1, Silent.mk) := by rw [← hf]
  obtain ⟨-, -, hleft, -⟩ := (Called.stops_unchanged h).1 _ _ _ _ hstep
  rw [hleft] at hstep
  have hcall := h.call .step Silent.mk
  simp only [call, hstep] at hcall
  obtain ⟨-, -, -, -, hidle⟩ := Called.stops_unchanged hcall
  exact ⟨answers, m, ⟨h, hf⟩, hstep, hs, hidle (by simp [hs]) calls Silent.mk⟩

end Brainfuck.Machine
