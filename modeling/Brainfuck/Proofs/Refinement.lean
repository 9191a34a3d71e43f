import Brainfuck.Proofs.LoopStack
import Brainfuck.Proofs.Structured

/-! The machine does what the tree of its program does. Between two steps a
running machine stands at a position of the text (`At`), and since its stack is
read off the text, position and store say all there is about it. A piece of the
text that holds a tree is gone through by the machine just as the tree runs, and
a run of the machine through it gives back a run of the tree.

The one place where the two take different ways is a loop. The tree comes back to
the loop as a whole; the machine looks at the guard again from the `]` and goes
on behind the `[`. A loop may therefore be entered at either bracket (`Entry`). -/

namespace Brainfuck.Machine

variable {σ : Type} [Terminal σ] {p : Program} {i j k stop n : Nat} {s s' : Store}
  {m m' : Machine} {io io' : σ} {c : Code}

/-! ## Single steps -/

/-- A running machine about to carry out position `i`, with the store `s`. -/
structure At (p : Program) (i : Nat) (s : Store) (m : Machine) : Prop where
  program : m.program = p
  running : m.status = .running
  next : m.next = i
  tracks : m.Tracks
  view : m.memory.view = s

/-- The next step is executed and leads to position `i`, the store `s` and the
terminal `io'`. -/
def Goes (m : Machine) (io : σ) (p : Program) (i : Nat) (s : Store) (io' : σ) : Prop :=
  ∃ x m', m.step io = (.executed x, m', io') ∧ At p i s m'

/-- The next step fails with `f` and keeps the store `s`. -/
def Stops (m : Machine) (io : σ) (f : Failure) (s : Store) (io' : σ) : Prop :=
  ∃ m', m.step io = (.failed f, m', io') ∧ m'.memory.view = s

theorem At.current_eq (h : At p i s m) : m.current = s.current := by
  rw [← h.view, Memory.current_view]
  rfl

theorem At.loops_eq (h : At p i s m) : m.loops = p.openLoops i := by
  rw [h.tracks.loops_eq, h.program, h.next]

theorem At.goes {a : Command} {e : Effect} (h : At p i s m) (hc : p[i]? = some a.symbol)
    (ha : m.Acts io a e m' io') (hn : m'.next = k) (hv : m'.memory.view = s') :
    m.Goes io p k s' io' := by
  rw [← h.program, ← h.next] at hc
  refine ⟨_, m', ha.step_eq h.running hc, ?_⟩
  exact ⟨by rw [ha.program_eq, h.program], by rw [ha.status_eq, h.running], hn,
    ha.tracks hc h.tracks, hv⟩

theorem At.stops {f : Failure} (h : At p i s m) (hf : m.Fails io f io') : m.Stops io f s io' :=
  ⟨m.stopped .failed, hf.step_eq h.running, h.view⟩

theorem At.straight {a : Straight} (h : At p i s m) (hc : p[i]? = some a.command.symbol)
    (ha : a.perform s io = (.ok s', io')) : m.Goes io p (i + 1) s' io' := by
  have hn : m.next + 1 = i + 1 := by rw [h.next]
  obtain rfl := h.view
  cases a with
  | right =>
    cases ha
    exact h.goes hc .right hn (m.memory.view_moveTo _)
  | left =>
    cases ha
    exact h.goes hc .left hn (m.memory.view_moveTo _)
  | increment =>
    cases ha
    exact h.goes hc .increment hn (m.memory.view_store _)
  | decrement =>
    cases ha
    exact h.goes hc .decrement hn (m.memory.view_store _)
  | output =>
    simp only [Straight.perform] at ha
    split at ha
    · rename_i hw
      cases ha
      exact h.goes hc (.output hw) hn rfl
    · cases ha
  | input =>
    simp only [Straight.perform] at ha
    split at ha
    · cases ha
    · rename_i hp
      split at ha
      · rename_i hr
        cases ha
        exact h.goes hc (.input hp hr) hn (m.memory.view_store _)
      · cases ha

theorem At.refused {a : Straight} {e : IoError} (h : At p i s m)
    (hc : p[i]? = some a.command.symbol) (ha : a.perform s io = (.error e, io')) :
    m.Stops io (.io e i) s io' := by
  rw [← h.program, ← h.next] at hc
  obtain rfl := h.next
  obtain rfl := h.view
  cases a with
  | right | left | increment | decrement => cases ha
  | output =>
    simp only [Straight.perform] at ha
    split at ha
    · cases ha
    · rename_i hw
      cases ha
      exact h.stops (.output hc hw)
  | input =>
    simp only [Straight.perform] at ha
    split at ha
    · rename_i hp
      cases ha
      exact h.stops (.prompt hc hp)
    · rename_i hp
      split at ha
      · cases ha
      · rename_i hr
        cases ha
        exact h.stops (.input hc hp hr)

theorem At.enter (h : At p i s m) (hc : p[i]? = some '[') (h0 : s.current ≠ 0) :
    m.Goes io p (i + 1) s io :=
  h.goes (a := .loopStart) hc (.enter (by rwa [h.current_eq])) (by rw [← h.next]; rfl) h.view

theorem At.stray (h : At p i s m) (hc : p[i]? = some ']') (ho : p.opening? i = none)
    (h0 : s.current = 0) : m.Goes io p (i + 1) s io := by
  refine h.goes (a := .loopEnd) hc (.stray (by rwa [h.current_eq]) ?_) (by rw [← h.next]; rfl) h.view
  rw [h.loops_eq]
  exact (Program.opening?_eq_none_iff hc).mp ho

/-- On a zero cell a loop is left, from either bracket. -/
theorem At.leave (h : At p k s m) (hp : p.opening? j = some i) (hk : k = i ∨ k = j)
    (h0 : s.current = 0) : m.Goes io p (j + 1) s io := by
  have hc := Program.opening?_bounds hp
  have h0' : m.current = 0 := by rwa [h.current_eq]
  rcases hk with rfl | rfl
  · refine h.goes (a := .loopStart) hc.2.2.1 (.skip h0' ?_) rfl h.view
    rw [h.program, h.next, Program.closing?_eq_ending? hc.2.2.1]
    exact Program.ending?_eq_some_iff.mpr hp
  · have hl : m.loops = i :: p.openLoops i := by
      rw [h.loops_eq, Program.openLoops_of_opening? hp]
    exact h.goes (a := .loopEnd) hc.2.2.2 (.exit h0' hl) (by rw [← h.next]; rfl) h.view

/-- On a nonzero cell the body of a loop comes next, from either bracket. -/
theorem At.repeats (h : At p k s m) (hp : p.opening? j = some i) (hk : k = i ∨ k = j)
    (h0 : s.current ≠ 0) : m.Goes io p (i + 1) s io := by
  have hc := Program.opening?_bounds hp
  rcases hk with rfl | rfl
  · exact h.enter hc.2.2.1 h0
  · have hl : m.loops = i :: p.openLoops i := by
      rw [h.loops_eq, Program.openLoops_of_opening? hp]
    exact h.goes (a := .loopEnd) hc.2.2.2 (.again (by rwa [h.current_eq]) hl) rfl h.view

theorem At.unclosed (h : At p i s m) (hc : p[i]? = some '[') (he : p.ending? i = none)
    (h0 : s.current = 0) : m.Stops io (.unbalanced .opening i) s io := by
  rw [← h.program, ← h.next] at hc he
  rw [← h.next]
  exact h.stops (.unclosed hc (by rwa [h.current_eq]) (by rwa [Program.closing?_eq_ending? hc]))

theorem At.unopened (h : At p i s m) (hc : p[i]? = some ']') (ho : p.opening? i = none)
    (h0 : s.current ≠ 0) : m.Stops io (.unbalanced .closing i) s io := by
  rw [← h.program, ← h.next] at hc ho
  rw [← h.next]
  refine h.stops (.unopened hc (by rwa [h.current_eq]) ?_)
  rw [h.tracks.loops_eq]
  exact (Program.opening?_eq_none_iff hc).mp ho

theorem At.invalid {ch : Char} (h : At p i s m) (hc : p[i]? = some ch)
    (hn : Command.ofChar? ch = none) : m.Stops io (.invalidCommand ch i) s io := by
  rw [← h.program, ← h.next] at hc
  rw [← h.next]
  exact h.stops (.invalid hc hn)

/-! ## Ways into a tree -/

/-- `Entry p c i stop`: a machine at `i` has the tree `c` before it, which ends at
`stop`. A loop may also be entered from its `]`. -/
inductive Entry (p : Program) : Code → Nat → Nat → Prop where
  | front {c : Code} {i stop : Nat} (h : c.Laid p i stop) : Entry p c i stop
  | back {body rest : Code} {i j stop : Nat} (hp : p.opening? j = some i)
      (hb : body.Laid p (i + 1) j) (hr : rest.Laid p (j + 1) stop) :
      Entry p (.loop body rest) j stop

theorem Entry.laid (h : Entry p c i stop) (hc : ∀ body rest, c ≠ .loop body rest) :
    c.Laid p i stop := by
  cases h with
  | front h => exact h
  | back => exact absurd rfl (hc _ _)

theorem Entry.loop_cases {body rest : Code} (h : Entry p (.loop body rest) k stop) :
    ∃ i j, p.opening? j = some i ∧ body.Laid p (i + 1) j ∧ rest.Laid p (j + 1) stop ∧
      (k = i ∨ k = j) := by
  cases h with
  | front h =>
    cases h with
    | loop hp hb hr => exact ⟨_, _, hp, hb, hr, .inl rfl⟩
  | back hp hb hr => exact ⟨_, _, hp, hb, hr, .inr rfl⟩

/-! ## From the tree to the machine -/

/-- Within some number of steps the machine comes to `stop`, or fails with the
failure that is given. -/
def Arrives (p : Program) (stop : Nat) (m : Machine) (io : σ) (s' : Store) (io' : σ) :
    Option Failure → Prop
  | none => ∃ n m', m.run n io = (.paused, m', io') ∧ At p stop s' m'
  | some f => ∃ n m', m.run n io = (.failed f, m', io') ∧ m'.memory.view = s'

variable {r : Option Failure} {m₁ : Machine} {io₁ : σ} {s₁ : Store}

theorem Arrives.of_run (hr : m.run n io = (.paused, m₁, io₁))
    (h : Arrives p stop m₁ io₁ s' io' r) : Arrives p stop m io s' io' r := by
  cases r with
  | none =>
    obtain ⟨n', m', hr', hm'⟩ := h
    exact ⟨n + n', m', by rw [run_add, hr]; exact hr', hm'⟩
  | some f =>
    obtain ⟨n', m', hr', hv⟩ := h
    exact ⟨n + n', m', by rw [run_add, hr]; exact hr', hv⟩

theorem Goes.arrives (hg : m.Goes io p i s₁ io₁)
    (h : ∀ m₁, At p i s₁ m₁ → Arrives p stop m₁ io₁ s' io' r) : Arrives p stop m io s' io' r := by
  obtain ⟨x, m₁, hs, hm₁⟩ := hg
  exact Arrives.of_run (n := 1) (by rw [run, hs]; rfl) (h m₁ hm₁)

theorem Stops.arrives {f : Failure} (h : m.Stops io f s io') :
    Arrives p stop m io s io' (some f) := by
  obtain ⟨m', hs, hv⟩ := h
  exact ⟨1, m', by rw [run, hs], hv⟩

theorem arrives_of_runs (hc : c.Runs s io r s' io') (he : Entry p c i stop) (h : At p i s m) :
    Arrives p stop m io s' io' r := by
  induction hc generalizing i stop m with
  | done =>
    cases he.laid nofun
    exact ⟨0, m, rfl, h⟩
  | straight ha _ ih =>
    cases he.laid nofun with
    | straight hc hr => exact (h.straight hc ha).arrives fun _ h₁ => ih (.front hr) h₁
  | refused ha =>
    cases he.laid nofun with
    | straight hc hr => exact (h.refused hc ha).arrives
  | loopDone h0 _ ih =>
    obtain ⟨i, j, hp, hb, hr, hk⟩ := he.loop_cases
    exact (h.leave hp hk h0).arrives fun _ h₁ => ih (.front hr) h₁
  | loopAgain h0 _ _ ihonce ihagain =>
    obtain ⟨i, j, hp, hb, hr, hk⟩ := he.loop_cases
    apply (h.repeats hp hk h0).arrives
    intro m₁ h₁
    obtain ⟨n, m₂, hrun, h₂⟩ := ihonce (.front hb) h₁
    -- the body has led to the `]`, and there the loop is entered once more
    exact (ihagain (.back hp hb hr) h₂).of_run hrun
  | loopFailed h0 _ ih =>
    obtain ⟨i, j, hp, hb, hr, hk⟩ := he.loop_cases
    apply (h.repeats hp hk h0).arrives
    intro m₁ h₁
    have hf := ih (.front hb) h₁
    exact hf
  | unclosed h0 _ ih =>
    cases he.laid nofun with
    | unclosed hc hn hr => exact (h.enter hc h0).arrives fun _ h₁ => ih (.front hr) h₁
  | unclosedFailed h0 =>
    cases he.laid nofun with
    | unclosed hc hn hr => exact (h.unclosed hc hn h0).arrives
  | unopened h0 _ ih =>
    cases he.laid nofun with
    | unopened hc ho hr => exact (h.stray hc ho h0).arrives fun _ h₁ => ih (.front hr) h₁
  | unopenedFailed h0 =>
    cases he.laid nofun with
    | unopened hc ho hr => exact (h.unopened hc ho h0).arrives
  | invalid =>
    cases he.laid nofun with
    | invalid hc hn hr => exact (h.invalid hc hn).arrives

/-! ## From the machine to the tree -/

/-- `Explained c p stop s io n e m' io'`: the machine's way to the ending `e` is a
way through the tree `c` from `s` and `io`. Either the tree fails just so, or it
comes to its end, and from `stop` the rest takes no more than `n` steps. -/
def Explained (c : Code) (p : Program) (stop : Nat) (s : Store) (io : σ) (n : Nat) (e : Ending)
    (m' : Machine) (io' : σ) : Prop :=
  (∃ f, e = .failed f ∧ c.Runs s io (some f) m'.memory.view io') ∨
  ∃ k s₁ m₁ io₁, k ≤ n ∧ c.Runs s io none s₁ io₁ ∧ At p stop s₁ m₁ ∧ m₁.run k io₁ = (e, m', io')

variable {e : Ending}

/-- What explains the rest of the way explains the whole of it. -/
theorem Explained.wrap {c₁ : Code} (h : Explained c₁ p stop s₁ io₁ k e m' io') (hk : k ≤ n)
    (hw : ∀ r s' io', c₁.Runs s₁ io₁ r s' io' → c.Runs s io r s' io') :
    Explained c p stop s io n e m' io' := by
  rcases h with ⟨f, hf, hr⟩ | ⟨l, s₂, m₂, io₂, hl, hr, h₂⟩
  · exact .inl ⟨f, hf, hw _ _ _ hr⟩
  · exact .inr ⟨l, s₂, m₂, io₂, by omega, hw _ _ _ hr, h₂⟩

/-- A run that ends after a step goes on from where the step leads. -/
theorem Goes.of_run (hg : m.Goes io p i s₁ io₁) (hr : m.run n io = (e, m', io'))
    (he : e ≠ .paused) : ∃ k m₁, n = k + 1 ∧ At p i s₁ m₁ ∧ m₁.run k io₁ = (e, m', io') := by
  obtain ⟨x, m₁, hs, hm₁⟩ := hg
  cases n with
  | zero =>
    cases hr
    exact absurd rfl he
  | succ k =>
    rw [run, hs] at hr
    exact ⟨k, m₁, rfl, hm₁, hr⟩

/-- A run from where the machine fails is that failure. -/
theorem Stops.explained {f : Failure} (hs : m.Stops io f s io₁) (hr : m.run n io = (e, m', io'))
    (he : e ≠ .paused) (hw : c.Runs s io (some f) s io₁) : Explained c p stop s io n e m' io' := by
  obtain ⟨m₁, hs, hv⟩ := hs
  cases n with
  | zero =>
    cases hr
    exact absurd rfl he
  | succ k =>
    rw [run, hs] at hr
    cases hr
    exact .inl ⟨f, rfl, by rwa [hv]⟩

theorem explained_of_run (he : Entry p c i stop) (h : At p i s m)
    (hr : m.run n io = (e, m', io')) (hp : e ≠ .paused) : Explained c p stop s io n e m' io' := by
  -- a loop comes back to itself, so the induction is on the number of steps left
  induction n using Nat.strongRecOn generalizing c i stop s m io with
  | _ n ih =>
    cases c with
    | done =>
      cases he.laid nofun
      exact .inr ⟨n, s, m, io, Nat.le_refl n, .done, h, hr⟩
    | straight ip a rest =>
      cases he.laid nofun with
      | straight hc hl =>
        rcases ha : a.perform s io with ⟨_ | s₁, io₁⟩
        · exact (h.refused hc ha).explained hr hp (.refused ha)
        · obtain ⟨k, m₁, rfl, h₁, hr₁⟩ := (h.straight hc ha).of_run hr hp
          exact (ih k (by omega) (.front hl) h₁ hr₁).wrap (by omega) fun _ _ _ => .straight ha
    | loop body rest =>
      obtain ⟨i, j, ho, hb, hl, hk⟩ := he.loop_cases
      by_cases h0 : s.current = 0
      · obtain ⟨k, m₁, rfl, h₁, hr₁⟩ := (h.leave ho hk h0).of_run hr hp
        exact (ih k (by omega) (.front hl) h₁ hr₁).wrap (by omega) fun _ _ _ => .loopDone h0
      · obtain ⟨k, m₁, rfl, h₁, hr₁⟩ := (h.repeats ho hk h0).of_run hr hp
        rcases ih k (by omega) (.front hb) h₁ hr₁ with
          ⟨f, hf, hbody⟩ | ⟨l, s₂, m₂, io₂, hl₂, hbody, h₂, hr₂⟩
        · exact .inl ⟨f, hf, .loopFailed h0 hbody⟩
        · exact (ih l (by omega) (.back ho hb hl) h₂ hr₂).wrap (by omega)
            fun _ _ _ => .loopAgain h0 hbody
    | unclosed ip rest =>
      cases he.laid nofun with
      | unclosed hc hn hl =>
        by_cases h0 : s.current = 0
        · exact (h.unclosed hc hn h0).explained hr hp (.unclosedFailed h0)
        · obtain ⟨k, m₁, rfl, h₁, hr₁⟩ := (h.enter hc h0).of_run hr hp
          exact (ih k (by omega) (.front hl) h₁ hr₁).wrap (by omega) fun _ _ _ => .unclosed h0
    | unopened ip rest =>
      cases he.laid nofun with
      | unopened hc hn hl =>
        by_cases h0 : s.current = 0
        · obtain ⟨k, m₁, rfl, h₁, hr₁⟩ := (h.stray hc hn h0).of_run hr hp
          exact (ih k (by omega) (.front hl) h₁ hr₁).wrap (by omega) fun _ _ _ => .unopened h0
        · exact (h.unopened hc hn h0).explained hr hp (.unopenedFailed h0)
    | invalid ip ch rest =>
      cases he.laid nofun with
      | invalid hc hn hl => exact (h.invalid hc hn).explained hr hp .invalid

/-! ## Whole programs -/

theorem at_load (source : String) : At (.ofSource source) 0 .blank (load source) :=
  ⟨rfl, rfl, rfl, rfl, Memory.view_blank⟩

theorem At.next_eq_none (h : At p p.size s m) : m.program[m.next]? = none := by
  rw [h.program, h.next]
  exact Array.getElem?_eq_none (Nat.le_refl _)

/-- **The machine refines the tree of its program.** For any source, terminal and
input: the machine comes to an end after finitely many steps exactly if the tree
has a result, and then with the same ending, the same value in every cell, the
same pointer and the same terminal. -/
theorem run_iff_results (source : String) (io : σ) (e : Ending) (s : Store) (io' : σ) :
    (∃ n m, (load source).run n io = (e, m, io') ∧ e ≠ .paused ∧ m.memory.view = s) ↔
      (Program.ofSource source).Results .blank io e s io' := by
  have hl := Program.laid_code (.ofSource source)
  constructor
  · intro h
    obtain ⟨n, m, hr, hp, rfl⟩ := h
    rcases explained_of_run (.front hl) (at_load source) hr hp with
      ⟨f, rfl, hc⟩ | ⟨k, s₁, m₁, io₁, -, hc, h₁, hr₁⟩
    · exact .failed hc
    · cases k with
      | zero =>
        cases hr₁
        exact absurd rfl hp
      | succ k =>
        obtain rfl := h₁.view
        rcases he : endLine io₁ with ⟨_ | _, io₂⟩
        · rw [run, (Transition.endRefused h₁.running h₁.next_eq_none he).step_eq, h₁.next] at hr₁
          cases hr₁
          exact .refused hc he
        · rw [run, (Transition.ended h₁.running h₁.next_eq_none he).step_eq] at hr₁
          cases hr₁
          exact .ended hc he
  · intro h
    cases h with
    | failed hc =>
      obtain ⟨n, m, hr, hv⟩ := arrives_of_runs hc (.front hl) (at_load source)
      exact ⟨n, m, hr, by simp, hv⟩
    | ended hc he =>
      obtain ⟨n, m, hr, hm⟩ := arrives_of_runs hc (.front hl) (at_load source)
      refine ⟨n + 1, m.stopped .terminated, ?_, by simp, hm.view⟩
      rw [run_add, hr]
      simp only [run]
      rw [(Transition.ended hm.running hm.next_eq_none he).step_eq]
    | refused hc he =>
      obtain ⟨n, m, hr, hm⟩ := arrives_of_runs hc (.front hl) (at_load source)
      refine ⟨n + 1, m.stopped .terminated, ?_, by simp, hm.view⟩
      rw [run_add, hr]
      simp only [run]
      rw [(Transition.endRefused hm.running hm.next_eq_none he).step_eq, hm.next]

end Brainfuck.Machine
