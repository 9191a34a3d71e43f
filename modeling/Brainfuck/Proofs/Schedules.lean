import Brainfuck.Proofs.Calls
import Brainfuck.Proofs.Transcript

/-! Calls of one machine, in any order and of any size. However a run is cut into
calls, the pieces put together are the run: each call begins between the two
instructions at which the call before it stopped, and behind the end of the run
nothing is left to do. -/

namespace Brainfuck

namespace Answer

/-- All instructions that some calls executed. -/
def log (answers : List Answer) : List Executed := answers.flatMap (·.done.toList)

def fails (a : Answer) : Bool :=
  match a.verdict with
  | .failed _ => true
  | _ => false

theorem fails_eq_false {a : Answer} (h : ∀ f, a.verdict ≠ .failed f) : a.fails = false := by
  unfold fails
  split
  · exact absurd ‹_› (h _)
  · rfl

theorem countP_fails_eq_zero {answers : List Answer}
    (h : ∀ a ∈ answers, ∀ f, a.verdict ≠ .failed f) : answers.countP fails = 0 :=
  List.countP_eq_zero.mpr fun a ha => by simp [fails_eq_false (h a ha)]

end Answer

namespace Call

/-- On terminals of this kind the call is a course of the machine. -/
def Runs (σ : Type) [Terminal σ] (c : Call) : Prop :=
  ∀ (m : Machine) (io : σ), m.Course io (m.call c io).1.done.toList (m.call c io).1.verdict
    (m.call c io).2.1 (m.call c io).2.2

theorem idle_verdict_ne_failed (c : Call) (f : Failure) : c.idle.verdict ≠ .failed f := by
  cases c with
  | step => simp [idle, Answer.verdict]
  | run bound => exact Ending.ofBound_ne_failed bound f
  | table bound room =>
    simp only [idle, Answer.verdict]
    split
    · rw [Ending.ofMachine_of_ne fun e ip => Ending.ofBound_ne_failed bound _]
      exact Ending.ofBound_ne_failed bound f
    · simp [Ending.ofMachine]

theorem log_idle (calls : List Call) : Answer.log (calls.map idle) = [] := by
  have hdone (c : Call) : c.idle.done = #[] := by cases c <;> rfl
  simp [Answer.log, List.flatMap_map, hdone]

end Call

namespace Machine

variable {σ : Type} [Terminal σ] {m m' : Machine} {io io' : σ} {calls : List Call}

/-! ## Calls in a row -/

/-- How calls of one machine go. Either all of them pause, and are one course; or one of
them comes to the end of it, and those behind it find nothing to do. -/
inductive Series (m : Machine) (io : σ) (answers : List Answer) (m' : Machine) (io' : σ) :
    Prop where
  | paused (hall : ∀ a ∈ answers, a.verdict = .paused)
      (hc : m.Course io (Answer.log answers) .paused m' io')
  | ended {past : List Answer} {a : Answer} {rest : List Call}
      (heq : answers = past ++ a :: rest.map Call.idle) (hpast : ∀ b ∈ past, b.verdict = .paused)
      (ha : a.verdict ≠ .paused) (hc : m.Course io (Answer.log answers) a.verdict m' io')

theorem serve_series (h : ∀ c ∈ calls, c.Runs σ) (m : Machine) (io : σ) :
    m.Series io (m.serve calls io).1 (m.serve calls io).2.1 (m.serve calls io).2.2 := by
  induction calls generalizing m io with
  | nil => exact .paused (by simp [serve]) (.paused m io)
  | cons c calls ih =>
    obtain ⟨hc, hcalls⟩ := List.forall_mem_cons.mp h
    have hfirst := hc m io
    rw [serve_cons]
    generalize m.call c io = x at hfirst ⊢
    obtain ⟨a, m₁, io₁⟩ := x
    dsimp only at hfirst ⊢
    by_cases hv : a.verdict = .paused
    · cases ih hcalls m₁ io₁ with
      | paused hall hc =>
        exact .paused (List.forall_mem_cons.mpr ⟨hv, hall⟩) (hfirst.append hv hc)
      | ended heq hpast hb hc =>
        exact .ended (by rw [heq, ← List.cons_append]) (List.forall_mem_cons.mpr ⟨hv, hpast⟩) hb
          (hfirst.append hv hc)
    · -- the machine has stopped
      have hlog : Answer.log (a :: calls.map Call.idle) = a.done.toList := by
        rw [Answer.log, List.flatMap_cons, ← Answer.log, Call.log_idle, List.append_nil]
      rw [serve_of_not_running (hfirst.not_running hv)]
      exact .ended (List.nil_append _).symm (by simp) hv (by rwa [hlog])

/-- What some calls of `m` came to, by their answers and what they left, is what one
run comes to. -/
structure OneRun (m : Machine) (io : σ) (answers : List Answer) (m' : Machine) (io' : σ) :
    Prop where
  /-- As long as all calls pause they are the beginning of the run. -/
  begun (h : ∀ a ∈ answers, a.verdict = .paused) :
    m.trace (Answer.log answers).length io = ((Answer.log answers).toArray, .paused, m', io')
  /-- Once a call does not they are all of it. -/
  ended (h : ∃ a ∈ answers, a.verdict ≠ .paused) :
    ∃ r, r ≠ .paused ∧ ∀ n, (Answer.log answers).length < n →
      m.trace n io = ((Answer.log answers).toArray, r, m', io')
  /-- An error is the one of the run. -/
  error {a : Answer} {f : Failure} (ha : a ∈ answers) (hf : a.verdict = .failed f) (n : Nat)
    (hn : (Answer.log answers).length < n) : (m.run n io).1 = .failed f
  once : answers.countP Answer.fails ≤ 1

theorem Series.oneRun {answers : List Answer} (h : m.Series io answers m' io') :
    m.OneRun io answers m' io' := by
  have hpause {answers : List Answer} (h : ∀ a ∈ answers, a.verdict = .paused) (a : Answer)
      (ha : a ∈ answers) (f : Failure) : a.verdict ≠ .failed f := by simp [h a ha]
  cases h with
  | paused hall hc =>
    exact ⟨fun _ => hc.trace_eq rfl, fun ⟨a, ha, hv⟩ => absurd (hall a ha) hv,
      fun ha hf => absurd hf (hpause hall _ ha _),
      by simp [Answer.countP_fails_eq_zero (hpause hall)]⟩
  | @ended past a rest heq hpast ha hc =>
    have hmem : a ∈ answers := by simp [heq]
    have htrace (n : Nat) (hn : (Answer.log answers).length < n) :=
      hc.trace_eq (Ending.takes_of_ne_paused ha hn)
    have hidle (b : Answer) (hb : b ∈ rest.map Call.idle) (f : Failure) :
        b.verdict ≠ .failed f := by
      obtain ⟨c, -, rfl⟩ := List.mem_map.mp hb
      exact c.idle_verdict_ne_failed f
    refine ⟨fun hall => absurd (hall a hmem) ha, fun _ => ⟨a.verdict, ha, htrace⟩, ?_, ?_⟩
    · intro b f hb hf n hn
      -- the call that fails is the one that came to the end
      have hba : b = a := by
        rw [heq, List.mem_append, List.mem_cons] at hb
        rcases hb with hb | rfl | hb
        · exact absurd hf (hpause hpast b hb f)
        · rfl
        · exact absurd hf (hidle b hb f)
      rw [← trace_snd, htrace n hn, ← hba, hf]
    · rw [heq, List.countP_append, List.countP_cons,
        Answer.countP_fails_eq_zero (hpause hpast), Answer.countP_fails_eq_zero hidle]
      split <;> omega

/-! ## The run goes on from the calls -/

/-- A longer run goes on from what the calls left, if anything is left to do. -/
theorem OneRun.goes_on {answers : List Answer} (h : m.OneRun io answers m' io') {n : Nat}
    (hn : (Answer.log answers).length < n) :
    ∃ j, (m.trace n io).1.toList = Answer.log answers ++ (m'.trace j io').1.toList ∧
      (m.run n io).2 = (m'.run j io').2 := by
  simp only [← trace_snd]
  by_cases hall : ∀ a ∈ answers, a.verdict = .paused
  · obtain ⟨j, rfl⟩ := Nat.exists_eq_add_of_le (Nat.le_of_lt hn)
    rw [trace_add (h.begun hall)]
    exact ⟨j, Array.toList_append, rfl⟩
  · obtain ⟨r, -, htrace⟩ := h.ended (by simpa using hall)
    rw [htrace n hn]
    exact ⟨0, (List.append_nil _).symm, rfl⟩

theorem OneRun.log_begins {answers : List Answer} (h : m.OneRun io answers m' io') {n : Nat}
    (hn : (Answer.log answers).length < n) :
    Answer.log answers <+: (m.trace n io).1.toList := by
  obtain ⟨j, hlog, -⟩ := h.goes_on hn
  exact ⟨_, hlog.symm⟩

theorem OneRun.before {s s' : Streams} {answers : List Answer} (h : m.OneRun s answers m' s')
    {n : Nat} (hn : (Answer.log answers).length < n) : s'.Before (m.run n s).2.2 := by
  obtain ⟨j, -, hrun⟩ := h.goes_on hn
  rw [hrun]
  exact before_run j m' s'

/-- **It does not matter how a run is cut into calls.** On any terminal, steps and runs
of any bounds add up to one run: they execute its instructions in its order, and lead
to the machine and the terminal that it has after as many steps; when a call is told
of the end they have done all of it, and of an error one call is told at most, and it
is the run's. On streams, what went through them is the beginning of what goes through
them in the run. In silence the same holds with tables among the calls, wherever their
pages are cut off. -/
theorem serve_as_one_run (m : Machine) :
    (∀ {σ : Type} [Terminal σ] (calls : List Call) (io : σ),
      (∀ c ∈ calls, c.onTerminal = true) →
        m.OneRun io (m.serve calls io).1 (m.serve calls io).2.1 (m.serve calls io).2.2 ∧
        ∀ n, (Answer.log (m.serve calls io).1).length < n →
          Answer.log (m.serve calls io).1 <+: (m.trace n io).1.toList) ∧
    (∀ (calls : List Call) (s : Streams), (∀ c ∈ calls, c.onTerminal = true) →
      ∀ n, (Answer.log (m.serve calls s).1).length < n →
        (m.serve calls s).2.2.Before (m.run n s).2.2) ∧
    ∀ calls : List Call,
      m.OneRun Silent.mk (m.serve calls Silent.mk).1 (m.serve calls Silent.mk).2.1 Silent.mk ∧
      ∀ n, (Answer.log (m.serve calls Silent.mk).1).length < n →
        Answer.log (m.serve calls Silent.mk).1 <+: (m.trace n Silent.mk).1.toList := by
  have hon {σ : Type} [Terminal σ] {calls : List Call} (h : ∀ c ∈ calls, c.onTerminal = true)
      (io : σ) := (serve_series (fun c hc => call_course (h c hc)) m io).oneRun
  refine ⟨fun calls io h => ⟨hon h io, fun n => (hon h io).log_begins⟩,
    fun calls s h n => (hon h s).before, fun calls => ?_⟩
  have hsilent :=
    (serve_series (fun c (_ : c ∈ calls) m _ => call_course_silent c m) m Silent.mk).oneRun
  exact ⟨hsilent, fun n => hsilent.log_begins⟩

/-- A table that is cut off in its second row, and an error met by the table after it.
On streams the error is met by a run, and the step behind it halts. -/
theorem serve_as_one_run_past_a_cut :
    let m := load "+[.-]x"
    let f := Failure.invalidCommand 'x' 5
    let tables := (m.serve [.step, .table 9 (some 200), .run 1, .table 9 none, .step] Silent.mk).1
    let calls := [.step, .run 2, .run 9, .step]
    let s := Streams.ofInput [] ""
    (tables.map Answer.ending =
        [.paused, .failed (.io ⟨.other, "table fault"⟩ 2), .paused, .failed f, .halted] ∧
      (Answer.log tables).map Executed.ip = [0, 1, 2, 3, 4] ∧
      ∀ n, 5 < n → (m.run n Silent.mk).1 = .failed f) ∧
    ((∀ c ∈ calls, c.onTerminal = true) ∧ (Answer.log (m.serve calls s).1).length < 9) ∧
    (m.serve calls s).1.countP Answer.fails ≤ 1 ∧
    (m.serve calls s).2.2.Before (m.run 9 s).2.2 := by
  intro m f tables calls s
  obtain ⟨hterminal, hstreams, hsilent⟩ := serve_as_one_run m
  have hon : ∀ c ∈ calls, c.onTerminal = true := by simp [calls, Call.onTerminal]
  have hlen : (Answer.log (m.serve calls s).1).length < 9 := by decide +kernel
  have hips : (Answer.log tables).map Executed.ip = [0, 1, 2, 3, 4] := by decide +kernel
  refine ⟨⟨by decide +kernel, hips, ?_⟩, ⟨hon, hlen⟩, (hterminal calls s hon).1.once,
    hstreams calls s hon 9 hlen⟩
  intro n hn
  obtain ⟨a, ha, hf⟩ : ∃ a ∈ tables, a.verdict = .failed f := by decide +kernel
  refine (hsilent _).1.error ha hf n ?_
  rwa [← List.length_map Executed.ip, hips]

end Machine

end Brainfuck
