import Brainfuck.Proofs.Matching
import Brainfuck.Proofs.Transition

/-! Programs without jumps. A program text is read as a tree, in which a pair of
brackets is a loop around its body and a bracket without a partner a test that
may fail; what a tree does is told by rules that run its parts one after the
other, over a store that is just a value for every index and a pointer. There is
no instruction pointer here, no stack and no search.

`laid_code` says where in the text the parts of the tree stand. -/

namespace Brainfuck

/-! ## Stores -/

/-- A value for every index, and the pointer to the current one. -/
structure Store where
  cells : Int → Cell
  pointer : Int

namespace Store

def blank : Store := ⟨fun _ => 0, 0⟩

def current (s : Store) : Cell := s.cells s.pointer

def moveTo (s : Store) (i : Int) : Store := { s with pointer := i }

def put (s : Store) (v : Cell) : Store :=
  { s with cells := fun i => if i = s.pointer then v else s.cells i }

end Store

/-- What a program can see of the memory. -/
def Memory.view (m : Memory) : Store := ⟨m.tape.get, m.pointer⟩

namespace Memory

theorem view_blank : blank.view = .blank := by
  simp [view, blank, Store.blank, funext_iff]

theorem current_view (m : Memory) : m.view.current = m.current := rfl

theorem view_moveTo (m : Memory) (i : Int) : (m.moveTo i).view = m.view.moveTo i := by
  simp [view, Store.moveTo, moveTo, funext_iff]

theorem view_store (m : Memory) (v : Cell) : (m.store v).view = m.view.put v := by
  simp only [view, Store.put, pointer_store]
  congr 1
  funext i
  exact m.get_store v i

end Memory

/-! ## Trees -/

/-- The commands that are no brackets. -/
inductive Straight where
  | right
  | left
  | increment
  | decrement
  | output
  | input
  deriving DecidableEq, Repr

namespace Straight

def command : Straight → Command
  | right => .right
  | left => .left
  | increment => .increment
  | decrement => .decrement
  | output => .output
  | input => .input

variable {σ : Type} [Terminal σ]

/-- What one of these commands does, and the refusal it may meet with. -/
def perform (a : Straight) (s : Store) (io : σ) : Except IoError Store × σ :=
  match a with
  | right => (.ok (s.moveTo (s.pointer + 1)), io)
  | left => (.ok (s.moveTo (s.pointer - 1)), io)
  | increment => (.ok (s.put s.current.increment), io)
  | decrement => (.ok (s.put s.current.decrement), io)
  | output =>
    match Terminal.writeByte s.current io with
    | (.ok (), io) => (.ok s, io)
    | (.error e, io) => (.error e, io)
  | input =>
    match Terminal.prompt io with
    | (.error e, io) => (.error e, io)
    | (.ok (), io) =>
      match Terminal.readByte io with
      | (.ok byte, io) => (.ok (s.put (byte.getD 0)), io)
      | (.error e, io) => (.error e, io)

end Straight

/-- A sequence of program parts. A part that can fail knows its position. -/
inductive Code where
  | done
  | straight (ip : Nat) (a : Straight) (rest : Code)
  | loop (body rest : Code)
  /-- A `[` without a partner. -/
  | unclosed (ip : Nat) (rest : Code)
  /-- A `]` without a partner. -/
  | unopened (ip : Nat) (rest : Code)
  | invalid (ip : Nat) (ch : Char) (rest : Code)
  deriving DecidableEq, Repr

namespace Code

/-- The part that a character other than a bracket stands for. -/
def ofChar (ip : Nat) (ch : Char) (rest : Code) : Code :=
  match ch with
  | '>' => straight ip .right rest
  | '<' => straight ip .left rest
  | '+' => straight ip .increment rest
  | '-' => straight ip .decrement rest
  | '.' => straight ip .output rest
  | ',' => straight ip .input rest
  | ch => invalid ip ch rest

end Code

namespace Program

/-- The tree of the text from position `i` up to `stop`. -/
def codeFrom (p : Program) (i stop : Nat) : Code :=
  if h : i < p.size then
    if stop ≤ i then .done
    else if p[i] = '[' then
      match hj : p.ending? i with
      | some j => .loop (p.codeFrom (i + 1) j) (p.codeFrom (j + 1) stop)
      | none => .unclosed i (p.codeFrom (i + 1) stop)
    else if p[i] = ']' then .unopened i (p.codeFrom (i + 1) stop)
    else .ofChar i p[i] (p.codeFrom (i + 1) stop)
  else .done
termination_by p.size - i
decreasing_by
  · omega
  · have := (opening?_bounds (ending?_eq_some_iff.mp hj)).1
    omega
  all_goals omega

/-- The tree of a whole program. -/
def code (p : Program) : Code := p.codeFrom 0 p.size

end Program

/-! ## What trees do -/

section

variable {σ : Type} [Terminal σ]

/-- `c.Runs s io r s' io'`: run from the store `s` and the terminal `io`, `c` ends
with `s'` and `io'`, having failed if `r` is a failure. -/
inductive Code.Runs : Code → Store → σ → Option Failure → Store → σ → Prop where
  | done {s : Store} {io : σ} : Runs .done s io none s io
  | straight {ip : Nat} {a : Straight} {rest : Code} {s s₁ s' : Store} {io io₁ io' : σ}
      {r : Option Failure} (h : a.perform s io = (.ok s₁, io₁)) (next : Runs rest s₁ io₁ r s' io') :
      Runs (.straight ip a rest) s io r s' io'
  | refused {ip : Nat} {a : Straight} {rest : Code} {s : Store} {io io' : σ} {e : IoError}
      (h : a.perform s io = (.error e, io')) :
      Runs (.straight ip a rest) s io (some (.io e ip)) s io'
  /-- While the current cell is not zero, the body is run. -/
  | loopDone {body rest : Code} {s s' : Store} {io io' : σ} {r : Option Failure}
      (h : s.current = 0) (next : Runs rest s io r s' io') : Runs (.loop body rest) s io r s' io'
  | loopAgain {body rest : Code} {s s₁ s' : Store} {io io₁ io' : σ} {r : Option Failure}
      (h : s.current ≠ 0) (once : Runs body s io none s₁ io₁)
      (again : Runs (.loop body rest) s₁ io₁ r s' io') : Runs (.loop body rest) s io r s' io'
  | loopFailed {body rest : Code} {s s' : Store} {io io' : σ} {f : Failure}
      (h : s.current ≠ 0) (once : Runs body s io (some f) s' io') :
      Runs (.loop body rest) s io (some f) s' io'
  | unclosed {ip : Nat} {rest : Code} {s s' : Store} {io io' : σ} {r : Option Failure}
      (h : s.current ≠ 0) (next : Runs rest s io r s' io') : Runs (.unclosed ip rest) s io r s' io'
  | unclosedFailed {ip : Nat} {rest : Code} {s : Store} {io : σ} (h : s.current = 0) :
      Runs (.unclosed ip rest) s io (some (.unbalanced .opening ip)) s io
  | unopened {ip : Nat} {rest : Code} {s s' : Store} {io io' : σ} {r : Option Failure}
      (h : s.current = 0) (next : Runs rest s io r s' io') : Runs (.unopened ip rest) s io r s' io'
  | unopenedFailed {ip : Nat} {rest : Code} {s : Store} {io : σ} (h : s.current ≠ 0) :
      Runs (.unopened ip rest) s io (some (.unbalanced .closing ip)) s io
  | invalid {ip : Nat} {ch : Char} {rest : Code} {s : Store} {io : σ} :
      Runs (.invalid ip ch rest) s io (some (.invalidCommand ch ip)) s io

/-- A whole program runs its tree, and unless that fails it writes a line feed
and flushes; a refusal of these counts as one behind the last position. -/
inductive Program.Results (p : Program) (s : Store) (io : σ) : Ending → Store → σ → Prop where
  | failed {f : Failure} {s' : Store} {io' : σ} (h : p.code.Runs s io (some f) s' io') :
      Results p s io (.failed f) s' io'
  | ended {s' : Store} {io₁ io' : σ} (h : p.code.Runs s io none s' io₁)
      (he : Machine.endLine io₁ = (.ok (), io')) : Results p s io .halted s' io'
  | refused {s' : Store} {io₁ io' : σ} {e : IoError} (h : p.code.Runs s io none s' io₁)
      (he : Machine.endLine io₁ = (.error e, io')) : Results p s io (.failed (.io e p.size)) s' io'

end

/-! ## Where trees stand -/

/-- `c.Laid p i stop`: the tree `c` stands in the text from `i` up to `stop`. -/
inductive Code.Laid (p : Program) : Code → Nat → Nat → Prop where
  | done {stop : Nat} : Laid p .done stop stop
  | straight {a : Straight} {rest : Code} {i stop : Nat} (hc : p[i]? = some a.command.symbol)
      (hr : Laid p rest (i + 1) stop) : Laid p (.straight i a rest) i stop
  | loop {body rest : Code} {i j stop : Nat} (hp : p.opening? j = some i)
      (hb : Laid p body (i + 1) j) (hr : Laid p rest (j + 1) stop) :
      Laid p (.loop body rest) i stop
  | unclosed {rest : Code} {i stop : Nat} (hc : p[i]? = some '[') (he : p.ending? i = none)
      (hr : Laid p rest (i + 1) stop) : Laid p (.unclosed i rest) i stop
  | unopened {rest : Code} {i stop : Nat} (hc : p[i]? = some ']') (ho : p.opening? i = none)
      (hr : Laid p rest (i + 1) stop) : Laid p (.unopened i rest) i stop
  | invalid {ch : Char} {rest : Code} {i stop : Nat} (hc : p[i]? = some ch)
      (hn : Command.ofChar? ch = none) (hr : Laid p rest (i + 1) stop) :
      Laid p (.invalid i ch rest) i stop

namespace Program

variable {p : Program} {i stop : Nat}

theorem laid_ofChar {ch : Char} {rest : Code} (hc : p[i]? = some ch) (h1 : ch ≠ '[')
    (h2 : ch ≠ ']') (hr : rest.Laid p (i + 1) stop) : (Code.ofChar i ch rest).Laid p i stop := by
  unfold Code.ofChar
  split
  · exact .straight hc hr
  · exact .straight hc hr
  · exact .straight hc hr
  · exact .straight hc hr
  · exact .straight hc hr
  · exact .straight hc hr
  · refine .invalid hc ?_ hr
    unfold Command.ofChar?
    split <;> simp_all

theorem laid_codeFrom (hi : i ≤ stop) (hs : stop ≤ p.size) (h : p.Closed i stop) :
    (p.codeFrom i stop).Laid p i stop := by
  fun_induction codeFrom p i stop with
  | case1 i stop _ hle =>
    obtain rfl := Nat.le_antisymm hi hle
    exact .done
  | case2 i stop hlt hle ho j hj ihb ihr =>
    have hp := ending?_eq_some_iff.mp hj
    have hij := (opening?_bounds hp).1
    have hjs := ((h i j hp).mp ⟨Nat.le_refl i, by omega⟩).2
    exact .loop hp (ihb hij (by omega) (closed_body hp)) (ihr hjs hs (h.behind hp))
  | case3 i stop hlt hle ho hj ih =>
    have hc : p[i]? = some '[' := by rw [Array.getElem?_eq_getElem hlt, ho]
    exact .unclosed hc hj (ih (by omega) hs (h.tail hj))
  | case4 i stop hlt hle ho hcl ih =>
    have hc : p[i]? = some ']' := by rw [Array.getElem?_eq_getElem hlt, hcl]
    refine .unopened hc ?_ (ih (by omega) hs (h.tail (ending?_eq_none_of_ne (by simp [hc]))))
    cases hp : p.opening? i with
    | none => rfl
    | some k =>
      have hk := (h k i hp).mpr ⟨Nat.le_refl i, by omega⟩
      have := (opening?_bounds hp).1
      omega
  | case5 i stop hlt hle ho hcl ih =>
    have hc := Array.getElem?_eq_getElem hlt
    have he : p.ending? i = none := ending?_eq_none_of_ne (by simpa [hc] using ho)
    exact laid_ofChar hc ho hcl (ih (by omega) hs (h.tail he))
  | case6 i stop hlt =>
    obtain rfl : i = stop := by omega
    exact .done

/-- The tree of a program stands in the whole of it. -/
theorem laid_code (p : Program) : p.code.Laid p 0 p.size :=
  laid_codeFrom (Nat.zero_le _) (Nat.le_refl _) p.closed_all

example : code #['+', '[', '-', ']', ']', '['] =
    .straight 0 .increment (.loop (.straight 2 .decrement .done)
      (.unopened 4 (.unclosed 5 .done))) := by
  decide +kernel

end Program

end Brainfuck
