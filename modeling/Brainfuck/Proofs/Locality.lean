import Brainfuck.Proofs.Course
import Brainfuck.Terminal.Silent

/-! What a machine reads of its program. A step reads the character it dispatches, and
a `[` on a zero cell also reads where the brackets are behind it. Nothing else of the
text matters, so a machine that finds the same there in another text does the same. -/

namespace Brainfuck

/-! ## The search sees brackets only -/

namespace Program

variable {p q : Program} {k : Nat}

/-- From the position `k` on, `q` has the brackets of `p`. -/
structure Mirrors (q : Program) (k : Nat) (p : Program) : Prop where
  size_le : k + p.size ≤ q.size
  opening {i : Nat} (hi : i < p.size) : q[k + i]? = some '[' ↔ p[i]? = some '['
  closing {i : Nat} (hi : i < p.size) : q[k + i]? = some ']' ↔ p[i]? = some ']'

/-- The search goes the same way, as long as it does not have to go on behind `p`. -/
theorem Mirrors.closingFrom_eq {depth i : Nat} (h : q.Mirrors k p)
    (hend : q.size = k + p.size ∨ (p.closingFrom depth i).isSome) :
    q.closingFrom depth (k + i) = (p.closingFrom depth i).map (k + ·) := by
  fun_induction closingFrom p depth i with
  | case1 depth i hi ho ih =>
    have ho' := (h.opening hi).mpr (by rw [Array.getElem?_eq_getElem hi, ho])
    rw [closingFrom_of_open ho', Nat.add_assoc, ih hend]
  | case2 i hi _ hc =>
    have hc' := (h.closing hi).mpr (by rw [Array.getElem?_eq_getElem hi, hc])
    rw [closingFrom_zero_of_close hc', Option.map_some]
  | case3 i hi _ hc outer ih =>
    have hc' := (h.closing hi).mpr (by rw [Array.getElem?_eq_getElem hi, hc])
    rw [closingFrom_succ_of_close hc', Nat.add_assoc, ih hend]
  | case4 depth i hi ho hc ih =>
    have ho' : q[k + i]? ≠ some '[' := by
      simpa [h.opening hi, Array.getElem?_eq_getElem hi] using ho
    have hc' : q[k + i]? ≠ some ']' := by
      simpa [h.closing hi, Array.getElem?_eq_getElem hi] using hc
    have hi' : k + i < q.size := Nat.lt_of_lt_of_le (Nat.add_lt_add_left hi k) h.size_le
    rw [closingFrom_of_other hi' ho' hc', Nat.add_assoc, ih hend]
  | case5 depth i hi =>
    rcases hend with hend | hsome
    · rw [closingFrom_of_size_le (by omega), Option.map_none]
    · cases hsome

theorem Mirrors.closing?_eq {i : Nat} (h : q.Mirrors k p)
    (hend : q.size = k + p.size ∨ (p.closing? i).isSome) :
    q.closing? (k + i) = (p.closing? i).map (k + ·) := by
  rw [closing?, Nat.add_assoc, h.closingFrom_eq hend, closing?]

/-- Two texts with the same brackets as far as the first goes. -/
theorem closing?_congr {i : Nat} (hsize : p.size ≤ q.size)
    (ho : ∀ i < p.size, q[i]? = some '[' ↔ p[i]? = some '[')
    (hc : ∀ i < p.size, q[i]? = some ']' ↔ p[i]? = some ']')
    (hend : q.size = p.size ∨ (p.closing? i).isSome) : q.closing? i = p.closing? i := by
  have hm : q.Mirrors 0 p := by
    refine ⟨by rwa [Nat.zero_add], fun {i} hi => ?_, fun {i} hi => ?_⟩
    · rw [Nat.zero_add, ho i hi]
    · rw [Nat.zero_add, hc i hi]
  rw [← Nat.zero_add i, hm.closing?_eq (by rwa [Nat.zero_add])]
  simp

end Program

/-! ## Another text under a machine -/

namespace Machine

variable {σ : Type} [Terminal σ] {m m' : Machine} {io io' : σ} {o : Outcome} {r : Ending}
  {es : List Executed} {q : Program}

/-- The machine with another program under it. -/
def retext (m : Machine) (q : Program) : Machine := { m with program := q }

/-- In `q` the next step finds what it finds in the machine's own program. -/
structure Reads (m : Machine) (q : Program) : Prop where
  char : q[m.next]? = m.program[m.next]?
  close : m.program[m.next]? = some '[' → q.closing? m.next = m.program.closing? m.next

theorem Acts.retext {c : Command} {e : Effect} (ha : m.Acts io c e m' io')
    (hc : m.program[m.next]? = some c.symbol) (h : m.Reads q) :
    (m.retext q).Acts io c e (m'.retext q) io' := by
  cases ha with
  | right => exact .right
  | left => exact .left
  | increment => exact .increment
  | decrement => exact .decrement
  | output hw => exact .output hw
  | input hp hr => exact .input hp hr
  | skip h0 hj => exact .skip h0 ((h.close hc).trans hj)
  | enter h0 => exact .enter h0
  | exit h0 hl => exact .exit h0 hl
  | stray h0 hl => exact .stray h0 hl
  | again h0 hl => exact .again h0 hl

theorem Fails.retext {f : Failure} (hf : m.Fails io f io') (h : m.Reads q) :
    (m.retext q).Fails io f io' := by
  cases hf with
  | invalid hc hn => exact .invalid (h.char.trans hc) hn
  | unclosed hc h0 hj => exact .unclosed (h.char.trans hc) h0 ((h.close hc).trans hj)
  | unopened hc h0 hl => exact .unopened (h.char.trans hc) h0 hl
  | output hc hw => exact .output (h.char.trans hc) hw
  | prompt hc hp => exact .prompt (h.char.trans hc) hp
  | input hc hp hr => exact .input (h.char.trans hc) hp hr

/-- A step that finds the same does the same. -/
theorem Transition.retext (ht : Transition m io o m' io')
    (h : m.status = .running → m.Reads q) :
    Transition (m.retext q) io o (m'.retext q) io' := by
  cases ht with
  | idle hs => exact .idle hs
  | executed hs hc ha => exact .executed hs ((h hs).char.trans hc) (ha.retext hc (h hs))
  | failed hs hf => exact .failed hs (hf.retext (h hs))
  | ended hs hp he => exact .ended hs ((h hs).char.trans hp) he
  | endRefused hs hp he => exact .endRefused hs ((h hs).char.trans hp) he

/-- `mid` comes up in the run of `m`, and goes on. -/
def Passes (m : Machine) (io : σ) (mid : Machine) : Prop :=
  mid.status = .running ∧ ∃ n u, m.run n io = (.paused, mid, u)

theorem passes_self (hs : m.status = .running) (io : σ) : m.Passes io m := ⟨hs, 0, io, rfl⟩

theorem Passes.of_executed {e : Executed} {mid : Machine}
    (ht : Transition m io (.executed e) m' io') (h : m'.Passes io' mid) : m.Passes io mid := by
  obtain ⟨hs, n, u, hrun⟩ := h
  exact ⟨hs, n + 1, u, by rw [run, ht.step_eq]; exact hrun⟩

theorem Course.retext (hc : m.Course io es r m' io') (h : ∀ mid, m.Passes io mid → mid.Reads q) :
    (m.retext q).Course io es r (m'.retext q) io' := by
  induction hc with
  | paused => exact .paused _ _
  | executed ht _ ih =>
    exact .executed (ht.retext fun hs => h _ (passes_self hs _))
      (ih fun mid hmid => h mid (hmid.of_executed ht))
  | halted ht => exact .halted (ht.retext fun hs => h _ (passes_self hs _))
  | failed ht => exact .failed (ht.retext fun hs => h _ (passes_self hs _))

end Machine

/-! ## Text that is never reached -/

namespace Program

/-- Two programs of one size with their brackets at the same positions. -/
structure SameBrackets (p q : Program) : Prop where
  size_eq : q.size = p.size
  opening : ∀ i < p.size, q[i]? = some '[' ↔ p[i]? = some '['
  closing : ∀ i < p.size, q[i]? = some ']' ↔ p[i]? = some ']'

instance (p q : Program) : Decidable (p.SameBrackets q) :=
  decidable_of_iff (q.size = p.size ∧ (∀ i < p.size, q[i]? = some '[' ↔ p[i]? = some '[') ∧
      ∀ i < p.size, q[i]? = some ']' ↔ p[i]? = some ']')
    ⟨fun ⟨h, ho, hc⟩ => ⟨h, ho, hc⟩, fun ⟨h, ho, hc⟩ => ⟨h, ho, hc⟩⟩

theorem SameBrackets.closing?_eq {p q : Program} (h : p.SameBrackets q) (i : Nat) :
    q.closing? i = p.closing? i :=
  closing?_congr (Nat.le_of_eq h.size_eq.symm) h.opening h.closing (.inl h.size_eq)

end Program

namespace Machine

variable {σ : Type} [Terminal σ] {io io' : σ}

/-- The run of the machine dispatches the character at the position `i`. -/
def Dispatches (m : Machine) (io : σ) (i : Nat) : Prop :=
  ∃ mid, m.Passes io mid ∧ mid.next = i ∧ i < mid.program.size

theorem Passes.program_eq {source : String} {mid : Machine} (h : (load source).Passes io mid) :
    mid.program = .ofSource source := by
  obtain ⟨-, n, u, hrun⟩ := h
  exact (Reachable.load.run hrun).program_eq

theorem Passes.reads {a b : String} {mid : Machine} (h : (load a).Passes io mid)
    (hb : (Program.ofSource a).SameBrackets (.ofSource b))
    (hd : ∀ i, (load a).Dispatches io i → (Program.ofSource b)[i]? = (Program.ofSource a)[i]?) :
    mid.Reads (.ofSource b) := by
  have hp := h.program_eq
  refine ⟨?_, fun _ => by rw [hb.closing?_eq, hp]⟩
  rcases Nat.lt_or_ge mid.next mid.program.size with hlt | hge
  · rw [hd mid.next ⟨mid, h, rfl, hlt⟩, hp]
  · -- both programs end here
    rw [hp] at hge
    rw [hp, Array.getElem?_eq_none hge, Array.getElem?_eq_none (hb.size_eq.symm ▸ hge)]

/-- **Text that is never reached has no say, but for its brackets.** Take two programs
with the same brackets, and one terminal. If the second has the same characters where
the run of the first comes, then whatever it has elsewhere, valid or not, any number of
steps is the same in both: the instructions executed, the result or error, and all that
is left of the terminal and the machine. -/
theorem trace_of_same_brackets {a b : String}
    (h : (Program.ofSource a).SameBrackets (.ofSource b))
    (hd : ∀ i, (load a).Dispatches io i → (Program.ofSource b)[i]? = (Program.ofSource a)[i]?)
    {n : Nat} {es : Array Executed} {r : Ending} {m : Machine}
    (htr : (load a).trace n io = (es, r, m, io')) :
    (load b).trace n io = (es, r, m.retext (.ofSource b), io') := by
  obtain ⟨es⟩ := es
  obtain ⟨hc, hn⟩ := trace_eq_iff.mp htr
  exact (hc.retext fun mid hmid => hmid.reads h hd).trace_eq hn

/-- A loop that is skipped and the text behind an error may hold anything. -/
theorem trace_of_same_brackets_around_an_error :
    let f := Failure.invalidCommand '!' 4
    ((Program.ofSource "[x]+!.").SameBrackets (.ofSource "[<]+!?") ∧
      (∀ i, (load "[x]+!.").Dispatches Silent.mk i →
        (Program.ofSource "[<]+!?")[i]? = (Program.ofSource "[x]+!.")[i]?) ∧
      ((load "[x]+!.").trace 9 Silent.mk).2.1 = .failed f) ∧
    ((load "[<]+!?").trace 9 Silent.mk).2.1 = .failed f := by
  intro f
  have hb : (Program.ofSource "[x]+!.").SameBrackets (.ofSource "[<]+!?") := by decide +kernel
  have hd (i : Nat) (hi : (load "[x]+!.").Dispatches Silent.mk i) :
      (Program.ofSource "[<]+!?")[i]? = (Program.ofSource "[x]+!.")[i]? := by
    obtain ⟨mid, ⟨-, n, u, hrun⟩, rfl, -⟩ := hi
    have hreached : ∀ n < 3, (Program.ofSource "[<]+!?")[((load "[x]+!.").run n
        Silent.mk).2.1.next]? = (Program.ofSource "[x]+!.")[((load "[x]+!.").run n
        Silent.mk).2.1.next]? := by decide +kernel
    rcases Nat.lt_or_ge n 3 with hlt | hge
    · have h := hreached n hlt
      rwa [hrun] at h
    · have h3 : ((load "[x]+!.").run 3 Silent.mk).1 = .failed f := by decide +kernel
      obtain ⟨j, rfl⟩ := Nat.exists_eq_add_of_le hge
      rw [run_add] at hrun
      split at hrun
      · rename_i h
        cases (congrArg Prod.fst h).symm.trans h3
      · cases (congrArg Prod.fst hrun).symm.trans h3
  have hf : ((load "[x]+!.").trace 9 Silent.mk).2.1 = .failed f := by decide +kernel
  refine ⟨⟨hb, hd, hf⟩, ?_⟩
  rw [trace_of_same_brackets hb hd rfl]
  exact hf

end Machine

end Brainfuck
