import Brainfuck.Machine.Run

/-! What a step can do, said once. `Transition` lists the ways in which a step
can go, with what each of them needs and leaves behind, and `step_eq_iff` says
that the list is right and complete: a step goes the way of a transition and of
no other. What is shown about machines below is shown by going through this
list, never by opening `Machine.turn` again.

`Reachable` collects the machines that any calls lead to. Each step may be taken
with a terminal of its own, and steps that fail or halt count as well. -/

namespace Brainfuck.Machine

variable {σ : Type} [Terminal σ] {m m' : Machine} {io io' : σ} {o : Outcome}

/-! ## The ways of a step -/

/-- `m.Acts io c e m' io'`: carrying out the command `c` at the next position
has the effect `e` and leads to the machine `m'` and the terminal `io'`. -/
inductive Acts (m : Machine) (io : σ) : Command → Effect → Machine → σ → Prop where
  | right : Acts m io .right (.moved (m.memory.pointer + 1))
      { m with ip := some m.next, memory := m.memory.moveTo (m.memory.pointer + 1) } io
  | left : Acts m io .left (.moved (m.memory.pointer - 1))
      { m with ip := some m.next, memory := m.memory.moveTo (m.memory.pointer - 1) } io
  | increment : Acts m io .increment (.incremented m.memory.pointer m.current m.current.increment)
      { m with ip := some m.next, memory := m.memory.store m.current.increment } io
  | decrement : Acts m io .decrement (.decremented m.memory.pointer m.current m.current.decrement)
      { m with ip := some m.next, memory := m.memory.store m.current.decrement } io
  | output {io' : σ} (hw : Terminal.writeByte m.current io = (.ok (), io')) :
      Acts m io .output (.wrote m.current) { m with ip := some m.next } io'
  | input {io₁ io' : σ} {byte : Option UInt8} (hp : Terminal.prompt io = (.ok (), io₁))
      (hr : Terminal.readByte io₁ = (.ok byte, io')) :
      Acts m io .input (.read byte)
        { m with ip := some m.next, memory := m.memory.store (byte.getD 0) } io'
  | skip {j : Nat} (h0 : m.current = 0) (hj : m.program.closing? m.next = some j) :
      Acts m io .loopStart (.skippedLoop j) { m with ip := some j } io
  | enter (h0 : m.current ≠ 0) :
      Acts m io .loopStart .enteredLoop
        { m with ip := some m.next, loops := m.next :: m.loops } io
  | exit {i : Nat} {loops : List Nat} (h0 : m.current = 0) (hl : m.loops = i :: loops) :
      Acts m io .loopEnd .exitedLoop { m with ip := some m.next, loops } io
  | stray (h0 : m.current = 0) (hl : m.loops = []) :
      Acts m io .loopEnd .strayLoopEnd { m with ip := some m.next } io
  | again {i : Nat} {loops : List Nat} (h0 : m.current ≠ 0) (hl : m.loops = i :: loops) :
      Acts m io .loopEnd (.repeatedLoop i) { m with ip := some i } io

/-- `m.Fails io f io'`: the instruction at the next position fails with `f`. -/
inductive Fails (m : Machine) (io : σ) : Failure → σ → Prop where
  | invalid {ch : Char} (hc : m.program[m.next]? = some ch) (hn : Command.ofChar? ch = none) :
      Fails m io (.invalidCommand ch m.next) io
  | unclosed (hc : m.program[m.next]? = some '[') (h0 : m.current = 0)
      (hj : m.program.closing? m.next = none) : Fails m io (.unbalanced .opening m.next) io
  | unopened (hc : m.program[m.next]? = some ']') (h0 : m.current ≠ 0) (hl : m.loops = []) :
      Fails m io (.unbalanced .closing m.next) io
  | output {io' : σ} {e : IoError} (hc : m.program[m.next]? = some '.')
      (hw : Terminal.writeByte m.current io = (.error e, io')) : Fails m io (.io e m.next) io'
  | prompt {io' : σ} {e : IoError} (hc : m.program[m.next]? = some ',')
      (hp : Terminal.prompt io = (.error e, io')) : Fails m io (.io e m.next) io'
  | input {io₁ io' : σ} {e : IoError} (hc : m.program[m.next]? = some ',')
      (hp : Terminal.prompt io = (.ok (), io₁))
      (hr : Terminal.readByte io₁ = (.error e, io')) : Fails m io (.io e m.next) io'

/-- The line feed at the end of a program, and the flush behind it. -/
def endLine (io : σ) : Except IoError Unit × σ :=
  match Terminal.writeByte 10 io with
  | (.ok (), io) => Terminal.flush io
  | (.error e, io) => (.error e, io)

/-- The machine stopped at the next position. -/
def stopped (m : Machine) (s : Status) : Machine := { m with ip := some m.next, status := s }

inductive Transition (m : Machine) (io : σ) : Outcome → Machine → σ → Prop where
  | idle (hs : m.status ≠ .running) : Transition m io .halted m io
  | executed {c : Command} {e : Effect} {m' : Machine} {io' : σ} (hs : m.status = .running)
      (hc : m.program[m.next]? = some c.symbol) (ha : m.Acts io c e m' io') :
      Transition m io (.executed ⟨m.next, c, m.memory.pointer, m.current, e⟩) m' io'
  | failed {f : Failure} {io' : σ} (hs : m.status = .running) (hf : m.Fails io f io') :
      Transition m io (.failed f) (m.stopped .failed) io'
  | ended {io' : σ} (hs : m.status = .running) (hp : m.program[m.next]? = none)
      (he : endLine io = (.ok (), io')) : Transition m io .halted (m.stopped .terminated) io'
  | endRefused {io' : σ} {e : IoError} (hs : m.status = .running)
      (hp : m.program[m.next]? = none) (he : endLine io = (.error e, io')) :
      Transition m io (.failed (.io e m.next)) (m.stopped .terminated) io'

/-! ## The list is right and complete -/

theorem Acts.step_eq {c : Command} {e : Effect} (ha : m.Acts io c e m' io')
    (hs : m.status = .running) (hc : m.program[m.next]? = some c.symbol) :
    m.step io = (.executed ⟨m.next, c, m.memory.pointer, m.current, e⟩, m', io') := by
  have ht : m.turn = m.dispatch m.next c := by
    simp [turn, hs, hc, Command.ofChar?_symbol]
  rw [step, ht]
  cases ha with
  | right | left | increment | decrement => rfl
  | output hw =>
    simp only [current] at hw
    simp [dispatch, Dialogue.play, hw, current]
  | input hp hr => simp [dispatch, Dialogue.play, hp, hr, current]
  | skip h0 hj | enter h0 | exit h0 hj | stray h0 hj | again h0 hj =>
    simp only [current] at h0
    simp_all [dispatch, Dialogue.play, current]

theorem Fails.step_eq {f : Failure} (hf : m.Fails io f io') (hs : m.status = .running) :
    m.step io = (.failed f, m.stopped .failed, io') := by
  cases hf with
  | invalid hc hn => simp [step, turn, hs, hc, hn, Dialogue.play, fail, stopped]
  | unclosed hc h0 hj | unopened hc h0 hj =>
    simp only [current] at h0
    simp [step, turn, hs, hc, Command.ofChar?, dispatch, h0, hj, Dialogue.play, fail, stopped]
  | output hc hw =>
    simp only [current] at hw
    simp [step, turn, hs, hc, Command.ofChar?, dispatch, hw, Dialogue.play, fail, stopped]
  | prompt hc hp =>
    simp [step, turn, hs, hc, Command.ofChar?, dispatch, hp, Dialogue.play, fail, stopped]
  | input hc hp hr =>
    simp [step, turn, hs, hc, Command.ofChar?, dispatch, hp, hr, Dialogue.play, fail, stopped]

theorem Fails.ip_eq {f : Failure} (hf : m.Fails io f io') : f.ip = m.next := by
  cases hf <;> rfl

theorem Fails.next_lt {f : Failure} (hf : m.Fails io f io') : m.next < m.program.size := by
  cases hf with
  | invalid hc | unclosed hc | unopened hc | output hc | prompt hc | input hc =>
    exact (Array.getElem?_eq_some_iff.mp hc).1

theorem step_at_end (hs : m.status = .running) (hp : m.program[m.next]? = none) :
    m.step io =
      match endLine io with
      | (.ok (), io) => (.halted, m.stopped .terminated, io)
      | (.error e, io) => (.failed (.io e m.next), m.stopped .terminated, io) := by
  have ht : m.turn = m.finish m.next := by simp [turn, hs, hp]
  rw [step, ht, finish, Dialogue.play, endLine]
  rcases Terminal.writeByte 10 io with ⟨_ | _, io₁⟩
  · rfl
  · dsimp only
    rw [Dialogue.play]
    rcases Terminal.flush io₁ with ⟨_ | _, io₂⟩ <;> rfl

theorem Transition.step_eq (h : Transition m io o m' io') : m.step io = (o, m', io') := by
  cases h with
  | idle hs =>
    have ht : m.turn = .done (.halted, m) := by
      unfold turn
      split
      · contradiction
      · rfl
    rw [step, ht, Dialogue.play]
  | executed hs hc ha => exact ha.step_eq hs hc
  | failed hs hf => exact hf.step_eq hs
  | ended hs hp he => rw [step_at_end hs hp, he]
  | endRefused hs hp he => rw [step_at_end hs hp, he]

/-- A command always goes through or fails. -/
theorem acts_or_fails (m : Machine) (io : σ) {c : Command}
    (hc : m.program[m.next]? = some c.symbol) :
    (∃ e m' io', m.Acts io c e m' io') ∨ ∃ f io', m.Fails io f io' := by
  cases c with
  | right => exact .inl ⟨_, _, _, .right⟩
  | left => exact .inl ⟨_, _, _, .left⟩
  | increment => exact .inl ⟨_, _, _, .increment⟩
  | decrement => exact .inl ⟨_, _, _, .decrement⟩
  | output =>
    rcases hw : Terminal.writeByte m.current io with ⟨_ | _, io'⟩
    · exact .inr ⟨_, _, .output hc hw⟩
    · exact .inl ⟨_, _, _, .output hw⟩
  | input =>
    rcases hp : Terminal.prompt io with ⟨_ | _, io₁⟩
    · exact .inr ⟨_, _, .prompt hc hp⟩
    · rcases hr : Terminal.readByte io₁ with ⟨_ | _, io'⟩
      · exact .inr ⟨_, _, .input hc hp hr⟩
      · exact .inl ⟨_, _, _, .input hp hr⟩
  | loopStart =>
    by_cases h0 : m.current = 0
    · cases hj : m.program.closing? m.next with
      | none => exact .inr ⟨_, _, .unclosed hc h0 hj⟩
      | some j => exact .inl ⟨_, _, _, .skip h0 hj⟩
    · exact .inl ⟨_, _, _, .enter h0⟩
  | loopEnd =>
    by_cases h0 : m.current = 0
    · cases hl : m.loops with
      | nil => exact .inl ⟨_, _, _, .stray h0 hl⟩
      | cons i loops => exact .inl ⟨_, _, _, .exit h0 hl⟩
    · cases hl : m.loops with
      | nil => exact .inr ⟨_, _, .unopened hc h0 hl⟩
      | cons i loops => exact .inl ⟨_, _, _, .again h0 hl⟩

theorem exists_transition (m : Machine) (io : σ) : ∃ o m' io', Transition m io o m' io' := by
  by_cases hs : m.status = .running
  · cases hc : m.program[m.next]? with
    | none =>
      rcases he : endLine io with ⟨_ | _, io'⟩
      · exact ⟨_, _, _, .endRefused hs hc he⟩
      · exact ⟨_, _, _, .ended hs hc he⟩
    | some ch =>
      cases hn : Command.ofChar? ch with
      | none => exact ⟨_, _, _, .failed hs (.invalid hc hn)⟩
      | some c =>
        rw [← Command.symbol_of_ofChar? hn] at hc
        rcases acts_or_fails m io hc with ⟨e, m', io', ha⟩ | ⟨f, io', hf⟩
        · exact ⟨_, _, _, .executed hs hc ha⟩
        · exact ⟨_, _, _, .failed hs hf⟩
  · exact ⟨_, _, _, .idle hs⟩

theorem step_eq_iff : m.step io = (o, m', io') ↔ Transition m io o m' io' := by
  refine ⟨?_, Transition.step_eq⟩
  intro h
  obtain ⟨o₁, m₁, io₁, ht⟩ := exists_transition m io
  rw [ht.step_eq] at h
  cases h
  exact ht

/-! ## What every step keeps -/

theorem Acts.program_eq {c : Command} {e : Effect} (ha : m.Acts io c e m' io') :
    m'.program = m.program := by
  cases ha <;> rfl

theorem Acts.status_eq {c : Command} {e : Effect} (ha : m.Acts io c e m' io') :
    m'.status = m.status := by
  cases ha <;> rfl

theorem Transition.program_eq (h : Transition m io o m' io') : m'.program = m.program := by
  cases h with
  | executed _ _ ha => exact ha.program_eq
  | idle | failed | ended | endRefused => rfl

/-- A machine that has stopped takes no part in anything any more. -/
theorem step_of_not_running (hs : m.status ≠ .running) (io : σ) : m.step io = (.halted, m, io) :=
  (Transition.idle hs).step_eq

/-! ## Reachable machines -/

/-- The machines that calls lead to from a loaded source. -/
inductive Reachable (source : String) : Machine → Prop where
  | load : Reachable source (load source)
  | step {σ : Type} [Terminal σ] {m m' : Machine} {io io' : σ} {o : Outcome}
      (h : Reachable source m) (hs : m.step io = (o, m', io')) : Reachable source m'

theorem Reachable.program_eq {source : String} (h : Reachable source m) :
    m.program = .ofSource source := by
  induction h with
  | load => rfl
  | step _ hs ih => rw [(step_eq_iff.mp hs).program_eq, ih]

theorem Reachable.run {source : String} {r : Ending} {n : Nat} (h : Reachable source m)
    (hr : m.run n io = (r, m', io')) : Reachable source m' := by
  induction n generalizing m io with
  | zero =>
    cases hr
    exact h
  | succ n ih =>
    rw [Machine.run] at hr
    split at hr
    · rename_i hs
      exact ih (h.step hs) hr
    · rename_i hs
      cases hr
      exact h.step hs
    · rename_i hs
      cases hr
      exact h.step hs

end Brainfuck.Machine
