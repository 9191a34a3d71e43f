import Brainfuck.Proofs.Locality
import Brainfuck.Proofs.Lockstep
import Brainfuck.Terminal.Streams

/-! No direction and no cell of the tape is special. Its cells may be counted along any
axis, from another cell on or the other way round (`Axis`), and a program whose moves
are exchanged accordingly does there what it did before (`lockstep_seen`). Only the
extent of a tape remembers where index 0 was, since a tape is laid down from there. -/

namespace Brainfuck

/-- How far a command moves the pointer. -/
def Command.stride : Command → Int
  | right => 1
  | left => -1
  | _ => 0

def Command.IsMove (c : Command) : Prop := c = right ∨ c = left

/-- A way to count the cells of a tape. -/
structure Axis where
  /-- The index of the cell that was at index 0. -/
  origin : Int
  /-- Whether the cells are counted the other way round. -/
  flipped : Bool

namespace Axis

/-- The index along the axis of the cell at `i`. -/
def place (x : Axis) (i : Int) : Int := if x.flipped then x.origin - i else x.origin + i

theorem place_inj (x : Axis) {i j : Int} : x.place i = x.place j ↔ i = j := by
  unfold place
  split <;> omega

/-! ## Programs along an axis -/

/-- The command that does along the axis what `c` did before. -/
def command (x : Axis) : Command → Command
  | .right => if x.flipped then .left else .right
  | .left => if x.flipped then .right else .left
  | c => c

theorem place_stride (x : Axis) (i : Int) (c : Command) :
    x.place (i + c.stride) = x.place i + (x.command c).stride := by
  obtain ⟨origin, flipped⟩ := x
  cases c <;> cases flipped <;> simp only [place, command, Command.stride] <;> grind

theorem isMove_command (x : Axis) {c : Command} (h : c.IsMove) : (x.command c).IsMove := by
  rcases h with rfl | rfl <;> unfold command <;> split <;> simp [Command.IsMove]

def char (x : Axis) : Char → Char
  | '>' => (x.command .right).symbol
  | '<' => (x.command .left).symbol
  | ch => ch

theorem char_symbol (x : Axis) (c : Command) : x.char c.symbol = (x.command c).symbol := by
  cases c <;> rfl

theorem char_of_ofChar?_eq_none (x : Axis) {ch : Char} (h : Command.ofChar? ch = none) :
    x.char ch = ch := by
  unfold char
  split
  · cases h
  · cases h
  · rfl

theorem char_eq_iff (x : Axis) {ch bracket : Char} (h : bracket = '[' ∨ bracket = ']') :
    x.char ch = bracket ↔ ch = bracket := by
  obtain ⟨origin, flipped⟩ := x
  unfold char
  rcases h with rfl | rfl <;> split <;> cases flipped <;> simp [command, Command.symbol]

theorem sameBrackets (x : Axis) (p : Program) : p.SameBrackets (p.map x.char) := by
  have hchar {bracket : Char} (h : bracket = '[' ∨ bracket = ']') (i : Nat) :
      (p.map x.char)[i]? = some bracket ↔ p[i]? = some bracket := by
    rw [Array.getElem?_map, Option.map_eq_some_iff]
    simp only [x.char_eq_iff h, exists_eq_right]
  exact ⟨Array.size_map, fun i _ => hchar (.inl rfl) i, fun i _ => hchar (.inr rfl) i⟩

end Axis

/-! ## Memories along an axis -/

namespace Axis

/-- `x.Shows v v₂`: the memory `v₂` is `v`, counted along the axis. It is laid down as
far as `v` is, and from there to its own index 0. -/
structure Shows (x : Axis) (v v₂ : Memory) : Prop where
  pointer : v₂.pointer = x.place v.pointer
  cells (i : Int) : v₂.tape.get (x.place i) = v.tape.get i
  lo : v₂.tape.lo = min 0 (min (x.place v.tape.lo) (x.place v.tape.hi))
  hi : v₂.tape.hi = max 0 (max (x.place v.tape.lo) (x.place v.tape.hi))

variable {x : Axis} {v v₂ : Memory}

theorem Shows.current (h : x.Shows v v₂) : v₂.current = v.current := by
  rw [Memory.current, h.pointer, h.cells, Memory.current]

/-- Laying down the cell at `i` as well goes along with the axis. -/
theorem Shows.lo_grown (h : x.Shows v v₂) (i : Int) :
    min v₂.tape.lo (x.place i) =
      min 0 (min (x.place (min v.tape.lo i)) (x.place (max v.tape.hi i))) := by
  have hlo := v.tape.lo_nonpos
  have hhi := v.tape.hi_nonneg
  rw [h.lo]
  unfold place
  split <;> omega

theorem Shows.hi_grown (h : x.Shows v v₂) (i : Int) :
    max v₂.tape.hi (x.place i) =
      max 0 (max (x.place (min v.tape.lo i)) (x.place (max v.tape.hi i))) := by
  have hlo := v.tape.lo_nonpos
  have hhi := v.tape.hi_nonneg
  rw [h.hi]
  unfold place
  split <;> omega

theorem Shows.moveTo (h : x.Shows v v₂) (i : Int) :
    x.Shows (v.moveTo i) (v₂.moveTo (x.place i)) where
  pointer := rfl
  cells j := by rw [Memory.get_moveTo, Memory.get_moveTo, h.cells]
  lo := by
    simp only [Memory.moveTo, Tape.lo_cover, Tape.hi_cover]
    exact h.lo_grown i
  hi := by
    simp only [Memory.moveTo, Tape.lo_cover, Tape.hi_cover]
    exact h.hi_grown i

theorem Shows.store (h : x.Shows v v₂) (c : Cell) : x.Shows (v.store c) (v₂.store c) where
  pointer := h.pointer
  cells i := by
    rw [Memory.get_store, Memory.get_store, h.pointer, h.cells]
    simp only [x.place_inj]
  lo := by
    simp only [Memory.store, Tape.lo_set, Tape.hi_set, h.pointer]
    exact h.lo_grown v.pointer
  hi := by
    simp only [Memory.store, Tape.lo_set, Tape.hi_set, h.pointer]
    exact h.hi_grown v.pointer

end Axis

/-! ## Machines along an axis -/

def Effect.along (x : Axis) : Effect → Effect
  | .moved target => .moved (x.place target)
  | .incremented cell before after => .incremented (x.place cell) before after
  | .decremented cell before after => .decremented (x.place cell) before after
  | e => e

def Executed.along (x : Axis) (e : Executed) : Executed :=
  { e with
    command := x.command e.command
    pointer := x.place e.pointer
    effect := e.effect.along x }

/-- Cells counted along the axis, and failures as they are. -/
def Retelling.along (x : Axis) : Retelling := ⟨Executed.along x, id⟩

theorem Retelling.ending_along (x : Axis) (r : Ending) : (along x).ending r = r := by
  cases r <;> rfl

namespace Machine

variable {σ : Type} [Terminal σ] {m m' m₂ : Machine} {io io' : σ} {o : Outcome} {x : Axis}

/-- `m₂` is the machine `m` with its tape counted along the axis. -/
structure Seen (x : Axis) (m m₂ : Machine) : Prop where
  program : m₂.program = m.program.map x.char
  ip : m₂.ip = m.ip
  memory : x.Shows m.memory m₂.memory
  loops : m₂.loops = m.loops
  status : m₂.status = m.status

theorem Seen.next (h : Seen x m m₂) : m₂.next = m.next := by
  rw [Machine.next, h.ip, Machine.next]

theorem Seen.current (h : Seen x m m₂) : m₂.current = m.current := h.memory.current

theorem Seen.char (h : Seen x m m₂) :
    m₂.program[m₂.next]? = m.program[m.next]?.map x.char := by
  rw [h.program, h.next, Array.getElem?_map]

theorem Seen.command {c : Command} (h : Seen x m m₂)
    (hc : m.program[m.next]? = some c.symbol) :
    m₂.program[m₂.next]? = some (x.command c).symbol := by
  rw [h.char, hc, Option.map_some, x.char_symbol]

theorem Seen.closing?_eq (h : Seen x m m₂) :
    m₂.program.closing? m₂.next = m.program.closing? m.next := by
  rw [h.program, h.next, (x.sameBrackets _).closing?_eq]

theorem Seen.stopped (h : Seen x m m₂) (s : Status) : Seen x (m.stopped s) (m₂.stopped s) :=
  ⟨h.program, congrArg some h.next, h.memory, h.loops, rfl⟩

theorem acts_move {c : Command} (hc : c.IsMove) (m : Machine) (io : σ) :
    m.Acts io c (.moved (m.memory.pointer + c.stride))
      { m with ip := some m.next, memory := m.memory.moveTo (m.memory.pointer + c.stride) } io := by
  rcases hc with rfl | rfl
  · exact .right
  · exact .left

/-- A move goes to the same cell, in the direction that it has along the axis. -/
theorem Seen.acts_move {c : Command} (hc : c.IsMove) (h : Seen x m m₂) (io : σ) :
    m₂.Acts io (x.command c) (.moved (x.place (m.memory.pointer + c.stride)))
      { m₂ with
        ip := some m₂.next
        memory := m₂.memory.moveTo (x.place (m.memory.pointer + c.stride)) } io := by
  rw [x.place_stride, ← h.memory.pointer]
  exact Machine.acts_move (x.isMove_command hc) m₂ io

theorem Seen.acts {c : Command} {e : Effect} (h : Seen x m m₂) (ha : m.Acts io c e m' io') :
    ∃ m₂', m₂.Acts io (x.command c) (e.along x) m₂' io' ∧ Seen x m' m₂' := by
  have hright := h.acts_move (.inl rfl) io
  have hleft := h.acts_move (.inr rfl) io
  have hclose := h.closing?_eq
  have hcur := h.current
  -- but for the program and the memory, `m₂` is put together from the parts of `m`
  obtain ⟨program, ip, memory, loops, status⟩ := m₂
  obtain ⟨rfl, rfl, hmem, rfl, rfl⟩ := h
  have hptr := hmem.pointer
  cases ha with
  | right => exact ⟨_, hright, rfl, rfl, hmem.moveTo _, rfl, rfl⟩
  | left => exact ⟨_, hleft, rfl, rfl, hmem.moveTo _, rfl, rfl⟩
  | increment =>
    rw [← hcur, Effect.along, ← hptr]
    exact ⟨_, .increment, rfl, rfl, hmem.store _, rfl, rfl⟩
  | decrement =>
    rw [← hcur, Effect.along, ← hptr]
    exact ⟨_, .decrement, rfl, rfl, hmem.store _, rfl, rfl⟩
  | output hw =>
    rw [← hcur] at hw ⊢
    exact ⟨_, .output hw, rfl, rfl, hmem, rfl, rfl⟩
  | input hp hr => exact ⟨_, .input hp hr, rfl, rfl, hmem.store _, rfl, rfl⟩
  | skip h0 hj => exact ⟨_, .skip (hcur.trans h0) (hclose.trans hj), rfl, rfl, hmem, rfl, rfl⟩
  | enter h0 => exact ⟨_, .enter (hcur ▸ h0), rfl, rfl, hmem, rfl, rfl⟩
  | exit h0 hl => exact ⟨_, .exit (hcur.trans h0) hl, rfl, rfl, hmem, rfl, rfl⟩
  | stray h0 hl => exact ⟨_, .stray (hcur.trans h0) hl, rfl, rfl, hmem, rfl, rfl⟩
  | again h0 hl => exact ⟨_, .again (hcur ▸ h0) hl, rfl, rfl, hmem, rfl, rfl⟩

theorem Seen.fails {f : Failure} (h : Seen x m m₂) (hf : m.Fails io f io') :
    m₂.Fails io f io' := by
  have hcur := h.current
  have hnext := h.next
  cases hf <;> rw [← hnext]
  case invalid hc hn =>
    exact .invalid (by rw [h.char, hc, Option.map_some, x.char_of_ofChar?_eq_none hn]) hn
  case unclosed hc h0 hj =>
    exact .unclosed (h.command (c := .loopStart) hc) (hcur.trans h0) (h.closing?_eq.trans hj)
  case unopened hc h0 hl =>
    exact .unopened (h.command (c := .loopEnd) hc) (hcur ▸ h0) (h.loops.trans hl)
  case output hc hw => exact .output (h.command (c := .output) hc) (hcur ▸ hw)
  case prompt hc hp => exact .prompt (h.command (c := .input) hc) hp
  case input hc hp hr => exact .input (h.command (c := .input) hc) hp hr

/-- What a machine does, it does along any axis. -/
theorem lockstep_seen (x : Axis) : Lockstep (.along x) (Seen x) where
  step {σ _ m m₂ m' io io' o} h ht := by
    cases ht with
    | idle hs => exact ⟨m₂, .idle (h.status ▸ hs), h⟩
    | executed hs hc ha =>
      obtain ⟨m₂', ha₂, h'⟩ := h.acts ha
      have ht₂ := Transition.executed (h.status.trans hs) (h.command hc) ha₂
      rw [h.next, h.memory.pointer, h.current] at ht₂
      exact ⟨m₂', ht₂, h'⟩
    | failed hs hf => exact ⟨_, .failed (h.status.trans hs) (h.fails hf), h.stopped .failed⟩
    | ended hs hp he =>
      exact ⟨_, .ended (h.status.trans hs) (by rw [h.char, hp, Option.map_none]) he,
        h.stopped .terminated⟩
    | endRefused hs hp he =>
      have ht₂ := Transition.endRefused (h.status.trans hs)
        (by rw [h.char, hp, Option.map_none]) he
      rw [h.next] at ht₂
      exact ⟨_, ht₂, h.stopped .terminated⟩

end Machine

/-! ## Mirror images -/

def exchanged : Char → Char
  | '<' => '>'
  | '>' => '<'
  | ch => ch

/-- The program with `<` and `>` exchanged. -/
def mirrored (source : String) : String := String.ofList (source.toList.map exchanged)

/-- The tape counted the other way round. -/
def Axis.mirror : Axis := ⟨0, true⟩

theorem Axis.char_mirror : Axis.mirror.char = exchanged := by
  funext ch
  unfold char exchanged
  split <;> simp_all [mirror, command, Command.symbol]

theorem isLayout_exchanged (ch : Char) : isLayout (exchanged ch) = isLayout ch := by
  unfold exchanged
  split <;> rfl

theorem ofSource_mirrored (source : String) :
    Program.ofSource (mirrored source) = (Program.ofSource source).map Axis.mirror.char := by
  rw [mirrored, Program.ofSource, Program.ofSource, String.toList_ofList, List.filter_map,
    Axis.char_mirror, List.map_toArray]
  simp only [Function.comp_def, isLayout_exchanged]

namespace Machine

variable {σ : Type} [Terminal σ] {m : Machine} {io io' : σ} {r : Ending}

theorem seen_mirrored (source : String) : Seen .mirror (load source) (load (mirrored source)) where
  program := ofSource_mirrored source
  ip := rfl
  memory := ⟨rfl, fun i => by simp [load, Memory.blank], rfl, rfl⟩
  loops := rfl
  status := rfl

/-- **Left and right are alike.** Exchange `<` and `>` in a program. On the same terminal
any number of steps is the same as before: it stops for the same reason, leaves the
terminal, the position, the loops and the status the same, and executes the same
instructions, but for the direction of the moves and the sign of the indices. The tape
and its extent are the mirror image of what they were. -/
theorem trace_mirrored {source : String} {n : Nat} {es : Array Executed}
    (h : (load source).trace n io = (es, r, m, io')) :
    ∃ m₂, (load (mirrored source)).trace n io = (es.map (Executed.along .mirror), r, m₂, io') ∧
      m₂.ip = m.ip ∧ m₂.loops = m.loops ∧ m₂.status = m.status ∧
      m₂.memory.pointer = -m.memory.pointer ∧
      (∀ i, m₂.memory.tape.get (-i) = m.memory.tape.get i) ∧
      m₂.memory.tape.lo = -m.memory.tape.hi ∧ m₂.memory.tape.hi = -m.memory.tape.lo := by
  obtain ⟨m₂, htr, hm⟩ := (lockstep_seen .mirror).trace (seen_mirrored source) h
  have hplace (i : Int) : Axis.mirror.place i = -i := Int.zero_sub i
  have hpointer := hm.memory.pointer
  have hcells := hm.memory.cells
  have hlo := hm.memory.lo
  have hhi := hm.memory.hi
  have hnonpos := m.memory.tape.lo_nonpos
  have hnonneg := m.memory.tape.hi_nonneg
  rw [Retelling.ending_along] at htr
  simp only [hplace] at hpointer hcells hlo hhi
  exact ⟨m₂, htr, hm.ip, hm.loops, hm.status, hpointer, hcells, by omega, by omega⟩

/-- A program that lays down cells on both sides of index 0, and the one that does so
the other way round. Both fail in the same place. -/
theorem trace_mirrored_on_both_sides :
    let source := "<+>>,[<-.>-]<<<x"
    let io := Streams.ofInput [2] "? "
    ∃ es m io', (load source).trace 40 io = (es, .failed (.invalidCommand 'x' 15), m, io') ∧
      ∃ m₂, (load ">+<<,[>-.<-]>>>x").trace 40 io =
          (es.map (Executed.along .mirror), .failed (.invalidCommand 'x' 15), m₂, io') ∧
        es.size = 21 ∧ io'.written .output = [255, 254] ∧
        m₂.memory.pointer = 2 ∧ m₂.memory.tape.lo = -1 ∧ m₂.memory.tape.hi = 2 := by
  intro source io
  have hmirrored : mirrored source = ">+<<,[>-.<-]>>>x" := by decide +kernel
  have hrun : let t := (load source).trace 40 io
      t.2.1 = .failed (.invalidCommand 'x' 15) ∧ t.1.size = 21 ∧
        t.2.2.2.written .output = [255, 254] ∧ t.2.2.1.memory.pointer = -2 ∧
        t.2.2.1.memory.tape.lo = -2 ∧ t.2.2.1.memory.tape.hi = 1 := by decide +kernel
  rcases htr : (load source).trace 40 io with ⟨es, r, m, io'⟩
  rw [htr] at hrun
  obtain ⟨rfl, hsize, hout, hpointer, hlo, hhi⟩ := hrun
  obtain ⟨m₂, htr₂, -, -, -, hpointer₂, -, hlo₂, hhi₂⟩ := trace_mirrored htr
  rw [hmirrored] at htr₂
  exact ⟨es, m, io', rfl, m₂, htr₂, hsize, hout, hpointer₂.trans (congrArg Int.neg hpointer),
    hlo₂.trans (congrArg Int.neg hhi), hhi₂.trans (congrArg Int.neg hlo)⟩

end Machine

end Brainfuck
