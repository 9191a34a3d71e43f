import Brainfuck.Proofs.Locality
import Brainfuck.Proofs.Lockstep
import Brainfuck.Proofs.LoopStack

/-! One program behind another. If every `[` of the first has its `]` there, nothing in
the first looks behind it and all its loops are left at its end. The second then begins
on the memory it is given, and goes on as it would alone (`Behind`), with all positions
moved by the size of the first. -/

namespace Brainfuck

/-! ## Moved positions -/

def Effect.shift (k : Nat) : Effect → Effect
  | .skippedLoop target => .skippedLoop (k + target)
  | .repeatedLoop target => .repeatedLoop (k + target)
  | e => e

def Executed.shift (k : Nat) (e : Executed) : Executed :=
  { e with ip := k + e.ip, effect := e.effect.shift k }

def Failure.shift (k : Nat) : Failure → Failure
  | .invalidCommand ch ip => .invalidCommand ch (k + ip)
  | .unbalanced side ip => .unbalanced side (k + ip)
  | .io e ip => .io e (k + ip)

def Outcome.shift (k : Nat) : Outcome → Outcome
  | .executed e => .executed (e.shift k)
  | .halted => .halted
  | .failed f => .failed (f.shift k)

def Ending.shift (k : Nat) : Ending → Ending
  | .paused => .paused
  | .halted => .halted
  | .failed f => .failed (f.shift k)

namespace Retelling

/-- Positions moved by `k`. -/
def shift (k : Nat) : Retelling := ⟨Executed.shift k, Failure.shift k⟩

theorem outcome_shift (k : Nat) (o : Outcome) : (shift k).outcome o = o.shift k := by
  cases o <;> rfl

theorem ending_shift (k : Nat) (r : Ending) : (shift k).ending r = r.shift k := by
  cases r <;> rfl

end Retelling

/-! ## Two texts in one -/

namespace Program

variable {p : Program} {i : Nat}

/-- Where every `[` has its `]`, no loop is open in the end. -/
theorem openLoops_size_of_unclosed (h : p.unclosed = []) : p.openLoops p.size = [] := by
  rw [← List.length_eq_zero_iff, length_openLoops_size, h, List.length_nil]

theorem closing?_isSome_of_unclosed (h : p.unclosed = []) (ho : p[i]? = some '[') :
    (p.closing? i).isSome := by
  rw [closing?_eq_ending? ho, Option.isSome_iff_ne_none]
  intro he
  have hi : i ∈ p.unclosed := mem_openLoops_size_iff.mp
    (mem_openLoops_of_ending?_eq_none ho he (Array.getElem?_eq_some_iff.mp ho).1)
  rw [h] at hi
  cases hi

theorem getElem?_append_right (p q : Program) (i : Nat) : (p ++ q)[p.size + i]? = q[i]? := by
  rw [Array.getElem?_append_right (Nat.le_add_right _ _), Nat.add_sub_cancel_left]

/-- Inside the first text the search does not leave it. -/
theorem closing?_append_left (h : p.unclosed = []) (q : Program) (ho : p[i]? = some '[') :
    (p ++ q).closing? i = p.closing? i := by
  refine closing?_congr (by simp) ?_ ?_ (.inr (closing?_isSome_of_unclosed h ho))
  · intro i hi
    rw [Array.getElem?_append_left hi]
  · intro i hi
    rw [Array.getElem?_append_left hi]

/-- Inside the second text the search finds what it finds in this text alone. -/
theorem closing?_append_right (p q : Program) (i : Nat) :
    (p ++ q).closing? (p.size + i) = (q.closing? i).map (p.size + ·) := by
  have hm : (p ++ q).Mirrors p.size q :=
    ⟨by simp, fun {i} _ => by rw [getElem?_append_right], fun {i} _ => by rw [getElem?_append_right]⟩
  exact hm.closing?_eq (.inl Array.size_append)

end Program

namespace Machine

variable {σ : Type} [Terminal σ] {m m' : Machine} {io io' : σ} {o : Outcome} {r : Ending}
  {es : List Executed}

/-! ## The first program -/

theorem reads_append (h : m.program.unclosed = []) (hlt : m.next < m.program.size) (q : Program) :
    m.Reads (m.program ++ q) :=
  ⟨Array.getElem?_append_left hlt, Program.closing?_append_left h q⟩

/-- As long as the end of the program is not passed, text behind it has no say. -/
theorem Course.append_program (hc : m.Course io es r m' io') (h : m.program.unclosed = [])
    (hs : m'.status ≠ .terminated) (q : Program) :
    (m.retext (m.program ++ q)).Course io es r (m'.retext (m.program ++ q)) io' := by
  induction hc with
  | paused => exact .paused _ _
  | executed ht _ ih =>
    have hreads := ht.retext fun _ => reads_append h ht.next_lt q
    rw [ht.program_eq] at ih
    exact .executed hreads (ih h hs)
  | halted ht =>
    cases ht with
    | idle hi => exact .halted (.idle hi)
    | ended => exact absurd rfl hs
  | failed ht =>
    cases ht with
    | failed hr hf => exact .failed (.failed hr (hf.retext (reads_append h hf.next_lt q)))
    | endRefused => exact absurd rfl hs

/-- A course that comes to the end of the program stands there before it ends. -/
theorem Course.before_end (hc : m.Course io es r m' io') (hs : m.status ≠ .terminated)
    (ht : m'.status = .terminated) :
    ∃ mid u, m.Course io es .paused mid u ∧ mid.status = .running ∧
      mid.program.size ≤ mid.next ∧ m' = mid.stopped .terminated ∧ io' = (endLine u).2 := by
  induction hc with
  | paused => exact absurd ht hs
  | executed he _ ih =>
    obtain ⟨mid, u, hc, h⟩ := ih (by simp [he.running_of_executed]) ht
    exact ⟨mid, u, .executed he hc, h⟩
  | @halted m _ io _ he =>
    cases he with
    | idle => exact absurd ht hs
    | ended hr hp he =>
      exact ⟨m, io, .paused m io, hr, Array.getElem?_eq_none_iff.mp hp, rfl, by rw [he]⟩
  | @failed m _ io _ _ he =>
    cases he with
    | failed => cases ht
    | endRefused hr hp he =>
      exact ⟨m, io, .paused m io, hr, Array.getElem?_eq_none_iff.mp hp, rfl, by rw [he]⟩

/-! ## The second program -/

/-- `m₂` is the machine `m` with its program behind `p`. -/
structure Behind (p : Program) (m m₂ : Machine) : Prop where
  program : m₂.program = p ++ m.program
  next : m₂.next = p.size + m.next
  memory : m₂.memory = m.memory
  loops : m₂.loops = m.loops.map (p.size + ·)
  status : m₂.status = m.status

variable {p : Program} {m₂ : Machine}

theorem Behind.current (h : Behind p m m₂) : m₂.current = m.current := by
  rw [Machine.current, h.memory, Machine.current]

theorem Behind.char (h : Behind p m m₂) : m₂.program[m₂.next]? = m.program[m.next]? := by
  rw [h.program, h.next, Program.getElem?_append_right]

theorem Behind.closing?_eq (h : Behind p m m₂) :
    m₂.program.closing? m₂.next = (m.program.closing? m.next).map (p.size + ·) := by
  rw [h.program, h.next, Program.closing?_append_right]

theorem Behind.stopped (h : Behind p m m₂) (s : Status) :
    Behind p (m.stopped s) (m₂.stopped s) :=
  ⟨h.program, congrArg Nat.succ h.next, h.memory, h.loops, rfl⟩

theorem Behind.acts {c : Command} {e : Effect} (h : Behind p m m₂) (ha : m.Acts io c e m' io') :
    ∃ m₂', m₂.Acts io c (e.shift p.size) m₂' io' ∧ Behind p m' m₂' := by
  have hclose := h.closing?_eq
  have hsucc : m₂.next + 1 = p.size + (m.next + 1) := congrArg Nat.succ h.next
  have hnext := h.next
  -- but for the instruction pointer, `m₂` is put together from the parts of `m`
  obtain ⟨program, ip, memory, loops, status⟩ := m₂
  obtain ⟨rfl, -, rfl, rfl, rfl⟩ := h
  cases ha with
  | right => exact ⟨_, .right, rfl, hsucc, rfl, rfl, rfl⟩
  | left => exact ⟨_, .left, rfl, hsucc, rfl, rfl, rfl⟩
  | increment => exact ⟨_, .increment, rfl, hsucc, rfl, rfl, rfl⟩
  | decrement => exact ⟨_, .decrement, rfl, hsucc, rfl, rfl, rfl⟩
  | output hw => exact ⟨_, .output hw, rfl, hsucc, rfl, rfl, rfl⟩
  | input hp hr => exact ⟨_, .input hp hr, rfl, hsucc, rfl, rfl, rfl⟩
  | skip h0 hj => exact ⟨_, .skip h0 (by rw [hclose, hj]; rfl), rfl, rfl, rfl, rfl, rfl⟩
  | enter h0 => exact ⟨_, .enter h0, rfl, hsucc, rfl, by rw [hnext, List.map_cons], rfl⟩
  | exit h0 hl => exact ⟨_, .exit h0 (by rw [hl]; rfl), rfl, hsucc, rfl, rfl, rfl⟩
  | stray h0 hl => exact ⟨_, .stray h0 (by rw [hl]; rfl), rfl, hsucc, rfl, rfl, rfl⟩
  | again h0 hl => exact ⟨_, .again h0 (by rw [hl]; rfl), rfl, rfl, rfl, rfl, rfl⟩

theorem Behind.fails {f : Failure} (h : Behind p m m₂) (hf : m.Fails io f io') :
    m₂.Fails io (f.shift p.size) io' := by
  have hcur := h.current
  cases hf <;> rw [Failure.shift, ← h.next]
  case invalid hc hn => exact .invalid (h.char.trans hc) hn
  case unclosed hc h0 hj =>
    exact .unclosed (h.char.trans hc) (hcur.trans h0) (by rw [h.closing?_eq, hj, Option.map_none])
  case unopened hc h0 hl =>
    exact .unopened (h.char.trans hc) (hcur ▸ h0) (by rw [h.loops, hl, List.map_nil])
  case output hc hw => exact .output (h.char.trans hc) (hcur ▸ hw)
  case prompt hc hp => exact .prompt (h.char.trans hc) hp
  case input hc hp hr => exact .input (h.char.trans hc) hp hr

/-- What a machine does, it does behind another program, at moved positions. -/
theorem Behind.transition (h : Behind p m m₂) (ht : Transition m io o m' io') :
    ∃ m₂', Transition m₂ io (o.shift p.size) m₂' io' ∧ Behind p m' m₂' := by
  cases ht with
  | idle hs => exact ⟨m₂, .idle (h.status ▸ hs), h⟩
  | executed hs hc ha =>
    obtain ⟨m₂', ha₂, h'⟩ := h.acts ha
    have ht₂ := Transition.executed (h.status.trans hs) (h.char.trans hc) ha₂
    rw [h.next, h.memory, h.current] at ht₂
    exact ⟨m₂', ht₂, h'⟩
  | failed hs hf => exact ⟨_, .failed (h.status.trans hs) (h.fails hf), h.stopped .failed⟩
  | ended hs hp he =>
    exact ⟨_, .ended (h.status.trans hs) (h.char.trans hp) he, h.stopped .terminated⟩
  | endRefused hs hp he =>
    have ht₂ := Transition.endRefused (h.status.trans hs) (h.char.trans hp) he
    rw [h.next] at ht₂
    exact ⟨_, ht₂, h.stopped .terminated⟩

theorem lockstep_behind (p : Program) : Lockstep (.shift p.size) (Behind p) where
  step h ht := by
    rw [Retelling.outcome_shift]
    exact h.transition ht

/-- A bounded run, behind another program. -/
theorem Behind.trace {n : Nat} {es : Array Executed} (h : Behind p m m₂)
    (htr : m.trace n io = (es, r, m', io')) :
    ∃ m₂', m₂.trace n io = (es.map (Executed.shift p.size), r.shift p.size, m₂', io') ∧
      Behind p m' m₂' := by
  rw [← Retelling.ending_shift]
  exact (lockstep_behind p).trace h htr

/-! ## The two in a row -/

/-- A program about to begin on a memory that is there. -/
def loadOnto (memory : Memory) (source : String) : Machine := { load source with memory }

/-- The machine at the end of a program that leaves no loop open stands where a program
behind it begins. -/
theorem behind_end {a b : String} {mid : Machine} (h : (Program.ofSource a).unclosed = [])
    (hm : Reachable a mid) (hs : mid.status = .running)
    (hend : mid.program.size ≤ mid.next) :
    Behind (.ofSource a) (loadOnto mid.memory b) (mid.retext (.ofSource (a ++ b))) := by
  have hp := hm.program_eq
  have hloops : mid.loops = [] := by
    rw [(hm.tracks (by simp [hs])).loops_eq, Program.openLoops_of_size_le hend, hp,
      Program.openLoops_size_of_unclosed h]
  refine ⟨Program.ofSource_append a b, ?_, rfl, ?_, hs⟩
  · show mid.next = (Program.ofSource a).size
    rw [Nat.le_antisymm (hm.next_le hs) hend, hp]
  · show mid.loops = []
    exact hloops

theorem load_append (a b : String) :
    load (a ++ b) = (load a).retext (Program.ofSource a ++ .ofSource b) := by
  rw [← Program.ofSource_append]
  rfl

/-- Before the end of the first program, both in a row do what the first does. -/
theorem trace_append_of_inside {a : String} {n : Nat} {es : Array Executed}
    (h : (Program.ofSource a).unclosed = []) (htr : (load a).trace n io = (es, r, m, io'))
    (hs : m.status ≠ .terminated) (b : String) :
    (load (a ++ b)).trace n io = (es, r, m.retext (.ofSource (a ++ b)), io') := by
  obtain ⟨es⟩ := es
  obtain ⟨hc, hn⟩ := trace_eq_iff.mp htr
  rw [load_append, Program.ofSource_append]
  exact (hc.append_program h hs (.ofSource b)).trace_eq hn

/-- **Two programs in a row.** Let every `[` of the first have its `]` there. As long as
the first has not come to its end, both in a row do what it does, whatever stands behind
it: so they fail where it fails, and go on for ever if it does. If it comes to its end,
then where it would write its line feed no loop is open, and they do step by step what
the second program does on the memory and the terminal of that moment, with all its
positions moved by the size of the first. -/
theorem trace_append {a b : String} (h : (Program.ofSource a).unclosed = []) (io : σ) :
    let k := (Program.ofSource a).size
    let both := load (a ++ b)
    (∀ n es r m u, (load a).trace n io = (es, r, m, u) → m.status ≠ .terminated →
      both.trace n io = (es, r, m.retext both.program, u)) ∧
    (∀ n f, ((load a).run n io).1 = .failed f → f.ip < k → (both.run n io).1 = .failed f) ∧
    ((∀ n, ((load a).run n io).1 = .paused) → ∀ n, (both.run n io).1 = .paused) ∧
    ∀ n es r m u, (load a).trace n io = (es, r, m, u) → m.status = .terminated →
      ∃ mid u₀, (load a).trace es.size io = (es, .paused, mid, u₀) ∧ mid.loops = [] ∧
        m = mid.stopped .terminated ∧ u = (endLine u₀).2 ∧
        both.trace es.size io = (es, .paused, mid.retext both.program, u₀) ∧
        ∀ j es' r' m' u', (loadOnto mid.memory b).trace j u₀ = (es', r', m', u') →
          ∃ m₂, both.trace (es.size + j) io =
              (es ++ es'.map (Executed.shift k), r'.shift k, m₂, u') ∧
            Behind (.ofSource a) m' m₂ := by
  intro k both
  have hinside {n : Nat} {es : Array Executed} {r : Ending} {m : Machine} {u : σ}
      (htr : (load a).trace n io = (es, r, m, u)) (hs : m.status ≠ .terminated) :
      both.trace n io = (es, r, m.retext both.program, u) := trace_append_of_inside h htr hs b
  refine ⟨fun n es r m u htr hs => hinside htr hs, ?_, ?_, ?_⟩
  · intro n f hf hlt
    rcases htr : (load a).trace n io with ⟨es, r, m, u⟩
    have hr : r = .failed f := by rw [← hf, ← trace_snd, htr]
    have hs : m.status = .failed := (trace_course htr).status_failed_iff.mpr (.inr ⟨f, hr, hlt⟩)
    rw [← trace_snd, hinside htr (by simp [hs]), hr]
  · intro hp n
    rcases htr : (load a).trace n io with ⟨es, r, m, u⟩
    have hr : r = .paused := by rw [← hp n, ← trace_snd, htr]
    have hs : m.status = .running := (trace_course htr).status_of_paused hr
    rw [← trace_snd, hinside htr (by simp [hs]), hr]
  · intro n es r m u htr hs
    obtain ⟨es⟩ := es
    obtain ⟨mid, u₀, hc, hrun, hend, rfl, rfl⟩ := (trace_course htr).before_end (by simp [load]) hs
    have hmid : (load a).trace es.length io = (es.toArray, .paused, mid, u₀) := hc.trace_eq rfl
    have hbehind : Behind (.ofSource a) (loadOnto mid.memory b) (mid.retext both.program) :=
      behind_end h (Reachable.load.course hc) hrun hend
    have hseam := hinside hmid (by simp [hrun])
    refine ⟨mid, u₀, hmid, ?_, rfl, rfl, hseam, ?_⟩
    · exact hbehind.loops
    · intro j es' r' m' u' htr'
      obtain ⟨m₂, htr₂, hm₂⟩ := hbehind.trace htr'
      refine ⟨m₂, ?_, hm₂⟩
      rw [List.size_toArray, trace_add hseam, htr₂]

/-- A first program with a stray `]`, and a second with a `]` that has nothing to go
back to: the second fails at its position 2, behind the six of the first. -/
theorem trace_append_of_stray_ends :
    let a := "]+[-]>"
    let b := "]+]"
    ((Program.ofSource a).unclosed = [] ∧
      ((load a).trace 9 Silent.mk).2.2.1.status = .terminated) ∧
    ((load (a ++ b)).trace 9 Silent.mk).2.1 = .failed (.unbalanced .closing 8) := by
  intro a b
  have h : (Program.ofSource a).unclosed = [] := by decide +kernel
  have hk : (Program.ofSource a).size = 6 := by decide +kernel
  have hs : ((load a).trace 9 Silent.mk).2.2.1.status = .terminated := by decide +kernel
  have hsize : ((load a).trace 9 Silent.mk).1.size = 6 := by decide +kernel
  have hsecond : ((loadOnto ((load a).trace 9 Silent.mk).2.2.1.memory b).trace 3 Silent.mk).2.1 =
      .failed (.unbalanced .closing 2) := by decide +kernel
  refine ⟨⟨h, hs⟩, ?_⟩
  obtain ⟨-, -, -, hend⟩ := trace_append (b := b) h Silent.mk
  rcases htr : (load a).trace 9 Silent.mk with ⟨es, r, m, ⟨⟩⟩
  rw [htr] at hs hsize hsecond
  obtain ⟨mid, ⟨⟩, -, -, rfl, -, -, hbehind⟩ := hend 9 es r m _ htr hs
  rcases htr₂ : (loadOnto mid.memory b).trace 3 Silent.mk with ⟨es₂, r₂, m₂, ⟨⟩⟩
  have hr₂ : r₂ = .failed (.unbalanced .closing 2) := by
    rw [← hsecond]
    exact (congrArg (·.2.1) htr₂).symm
  obtain ⟨m₃, hboth, -⟩ := hbehind 3 es₂ r₂ m₂ _ htr₂
  rw [hsize] at hboth
  rw [hboth, hr₂, hk]
  rfl

end Machine

end Brainfuck
