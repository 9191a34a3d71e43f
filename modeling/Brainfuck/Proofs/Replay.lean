import Brainfuck.Proofs.Course
import Brainfuck.Terminal.Silent

/-! What a record of executed instructions is worth. An entry of the record says
where an instruction stands, which it is and what it did, and nothing about the
machine. Played back over a blank memory (`Replay`), the entries give the machine
again: its cells, its pointer, how many loops are open and where it goes on. And
each entry says of the machine that it met what the entries before it say. -/

namespace Brainfuck

/-- What an executed instruction reports of itself. -/
structure Entry where
  ip : Nat
  command : Command
  effect : Effect
  deriving DecidableEq, Repr

def Executed.entry (e : Executed) : Entry := ⟨e.ip, e.command, e.effect⟩

/-- The position behind which the machine goes on. -/
def Entry.landing (x : Entry) : Nat :=
  match x.effect with
  | .skippedLoop target | .repeatedLoop target => target
  | _ => x.ip

/-- What entries tell of a machine. -/
structure Replay where
  cells : Int → Cell
  pointer : Int
  /-- Loops entered less loops left. -/
  depth : Int
  next : Nat

namespace Replay

def blank : Replay := ⟨fun _ => 0, 0, 0, 0⟩

def current (p : Replay) : Cell := p.cells p.pointer

def put (p : Replay) (i : Int) (v : Cell) : Replay :=
  { p with cells := fun j => if j = i then v else p.cells j }

/-- What an effect changes, apart from the position. -/
def apply (p : Replay) : Effect → Replay
  | .moved target => { p with pointer := target }
  | .incremented cell _ after | .decremented cell _ after => p.put cell after
  | .read byte => p.put p.pointer (byte.getD 0)
  | .enteredLoop => { p with depth := p.depth + 1 }
  | .exitedLoop => { p with depth := p.depth - 1 }
  | .wrote _ | .skippedLoop _ | .repeatedLoop _ | .strayLoopEnd => p

def after (p : Replay) (x : Entry) : Replay := { p.apply x.effect with next := x.landing + 1 }

def play (p : Replay) (log : List Entry) : Replay := log.foldl after p

/-- `p.Foresees c e`: after what was played so far, the command `c` can have the
effect `e`. Nothing is left open but what comes in from outside and where a jump
leads to. -/
inductive Foresees (p : Replay) : Command → Effect → Prop where
  | right : Foresees p .right (.moved (p.pointer + 1))
  | left : Foresees p .left (.moved (p.pointer - 1))
  | increment {v : Cell} (hv : v.toNat = (p.current.toNat + 1) % 256) :
      Foresees p .increment (.incremented p.pointer p.current v)
  | decrement {v : Cell} (hv : v.toNat = (p.current.toNat + 255) % 256) :
      Foresees p .decrement (.decremented p.pointer p.current v)
  | output : Foresees p .output (.wrote p.current)
  | input (byte : Option UInt8) : Foresees p .input (.read byte)
  | skip (h0 : p.current = 0) (j : Nat) : Foresees p .loopStart (.skippedLoop j)
  | enter (h0 : p.current ≠ 0) : Foresees p .loopStart .enteredLoop
  | exit (h0 : p.current = 0) (hd : 0 < p.depth) : Foresees p .loopEnd .exitedLoop
  | stray (h0 : p.current = 0) (hd : p.depth = 0) : Foresees p .loopEnd .strayLoopEnd
  | again (h0 : p.current ≠ 0) (hd : 0 < p.depth) (i : Nat) :
      Foresees p .loopEnd (.repeatedLoop i)

/-- What the replay says of the instruction executed next. -/
structure Expects (p : Replay) (e : Executed) : Prop where
  ip : e.ip = p.next
  effect : p.Foresees e.command e.effect
  pointer : e.pointer = p.pointer
  cell : e.cell = p.current

@[simp] theorem play_nil (p : Replay) : p.play [] = p := rfl

@[simp] theorem play_cons (p : Replay) (x : Entry) (log : List Entry) :
    p.play (x :: log) = (p.after x).play log := rfl

theorem depth_after (p : Replay) (x : Entry) :
    (p.after x).depth + [x.effect].count .exitedLoop =
      p.depth + [x.effect].count .enteredLoop := by
  rcases x with ⟨ip, c, e⟩
  cases e <;> simp [after, apply, put]

/-- The depth played back is what a count of the entries gives. -/
theorem depth_play (p : Replay) (log : List Entry) :
    (p.play log).depth + (log.map Entry.effect).count .exitedLoop =
      p.depth + (log.map Entry.effect).count .enteredLoop := by
  induction log generalizing p with
  | nil => simp
  | cons x log ih =>
    have hx := p.depth_after x
    have hlog := ih (p.after x)
    rw [play_cons, List.map_cons, ← List.singleton_append, List.count_append, List.count_append]
    omega

end Replay

namespace Machine

variable {σ : Type} [Terminal σ] {m m' : Machine} {io io' : σ} {o : Outcome} {p : Replay}

/-- The replay has got the machine right. -/
structure Agrees (m : Machine) (p : Replay) : Prop where
  cells (i : Int) : m.memory.tape.get i = p.cells i
  pointer : m.memory.pointer = p.pointer
  depth : (m.depth : Int) = p.depth
  next : m.status = .running → m.next = p.next

theorem Agrees.current (h : m.Agrees p) : m.current = p.current := by
  rw [Machine.current, Memory.current, h.cells, h.pointer, Replay.current]

theorem Agrees.loops_nil (h : m.Agrees p) (hl : m.loops = []) : p.depth = 0 := by
  simp [← h.depth, Machine.depth, hl]

theorem Agrees.loops_cons (h : m.Agrees p) {i : Nat} {loops : List Nat}
    (hl : m.loops = i :: loops) : p.depth = loops.length + 1 := by
  simp [← h.depth, Machine.depth, hl]

theorem agrees_load (source : String) : (load source).Agrees .blank :=
  ⟨Tape.get_blank, rfl, rfl, fun _ => rfl⟩

/-! ## Steps -/

theorem Acts.foreseen {c : Command} {e : Effect} (ha : m.Acts io c e m' io') (h : m.Agrees p) :
    p.Foresees c e := by
  have hcur := h.current
  have hptr := h.pointer
  cases ha with
  | right =>
    rw [hptr]
    exact .right
  | left =>
    rw [hptr]
    exact .left
  | increment =>
    rw [hptr, hcur]
    exact .increment (Cell.toNat_increment _)
  | decrement =>
    rw [hptr, hcur]
    exact .decrement (Cell.toNat_decrement _)
  | output =>
    rw [hcur]
    exact .output
  | input => exact .input _
  | skip h0 => exact .skip (hcur ▸ h0) _
  | enter h0 => exact .enter (hcur ▸ h0)
  | exit h0 hl => exact .exit (hcur ▸ h0) (by have := h.loops_cons hl; omega)
  | stray h0 hl => exact .stray (hcur ▸ h0) (h.loops_nil hl)
  | again h0 hl => exact .again (hcur ▸ h0) (by have := h.loops_cons hl; omega) _

theorem Agrees.store (h : m.Agrees p) (v : Cell) (i : Int) :
    (m.memory.store v).tape.get i = (p.put p.pointer v).cells i := by
  rw [Memory.get_store, h.cells, h.pointer, Replay.put]

theorem Acts.agrees {c : Command} {e : Effect} (ha : m.Acts io c e m' io') (h : m.Agrees p) :
    m'.Agrees (p.after ⟨m.next, c, e⟩) := by
  cases ha with
  | right | left => exact ⟨fun i => (Memory.get_moveTo _ _ i).trans (h.cells i), rfl, h.depth,
      fun _ => rfl⟩
  | increment | decrement =>
    refine ⟨fun i => ?_, h.pointer, h.depth, fun _ => rfl⟩
    show _ = (p.put m.memory.pointer _).cells i
    rw [h.pointer]
    exact h.store _ i
  | input => exact ⟨fun i => h.store _ i, h.pointer, h.depth, fun _ => rfl⟩
  | output | skip | stray | again => exact ⟨h.cells, h.pointer, h.depth, fun _ => rfl⟩
  | enter =>
    refine ⟨h.cells, h.pointer, ?_, fun _ => rfl⟩
    show ((m.loops.length + 1 : Nat) : Int) = p.depth + 1
    rw [← h.depth, Machine.depth]
    omega
  | @exit i loops _ hl =>
    refine ⟨h.cells, h.pointer, ?_, fun _ => rfl⟩
    show (loops.length : Int) = p.depth - 1
    rw [h.loops_cons hl]
    omega

/-- A step that executes nothing leaves what a replay has got right. -/
theorem Transition.agrees (ht : Transition m io o m' io') (h : m.Agrees p)
    (ho : ∀ e, o ≠ .executed e) : m'.Agrees p := by
  cases ht with
  | idle => exact h
  | executed => exact absurd rfl (ho _)
  | failed | ended | endRefused => exact ⟨h.cells, h.pointer, h.depth, fun hs => by cases hs⟩

theorem Transition.replays {e : Executed} (ht : Transition m io (.executed e) m' io')
    (h : m.Agrees p) : p.Expects e ∧ m'.Agrees (p.after e.entry) := by
  cases ht with
  | executed hs hc ha =>
    exact ⟨⟨h.next hs, ha.foreseen h, h.pointer, h.current⟩, ha.agrees h⟩

/-! ## Runs -/

theorem Course.agrees {es : List Executed} {r : Ending} (hc : m.Course io es r m' io')
    (h : m.Agrees p) :
    (∀ past e rest, es = past ++ e :: rest → (p.play (past.map Executed.entry)).Expects e) ∧
      m'.Agrees (p.play (es.map Executed.entry)) := by
  induction hc generalizing p with
  | paused => exact ⟨fun past e rest hes => by simp at hes, h⟩
  | executed ht _ ih =>
    obtain ⟨he₁, hm₁⟩ := ht.replays h
    obtain ⟨hrest, hm'⟩ := ih hm₁
    refine ⟨?_, hm'⟩
    intro past e rest hes
    -- the entry is the first of the run, or one of the rest of it
    rcases past with _ | ⟨_, past⟩
    · obtain ⟨rfl, -⟩ := List.cons.inj hes
      exact he₁
    · obtain ⟨rfl, htail⟩ := List.cons.inj hes
      exact hrest past e rest htail
  | halted ht => exact ⟨fun past e rest hes => by simp at hes, ht.agrees h (by simp)⟩
  | failed ht => exact ⟨fun past e rest hes => by simp at hes, ht.agrees h (by simp)⟩

/-- **A record tells all about the machine.** Play the entries of a run back from
nothing. Each of them then stands where the entries before it lead to, and does
what they say its command has to do; the replay ends with the cells, the pointer
and the depth of the machine, and with its next position unless it has stopped. -/
theorem trace_replays {source : String} {n : Nat} {es : Array Executed} {r : Ending}
    (h : (load source).trace n io = (es, r, m, io')) :
    let last := Replay.blank.play (es.toList.map Executed.entry)
    (∀ past e rest, es.toList = past ++ e :: rest →
      (Replay.blank.play (past.map Executed.entry)).Expects e) ∧
    (∀ i, m.memory.tape.get i = last.cells i) ∧ m.memory.pointer = last.pointer ∧
    (m.depth : Int) = last.depth ∧
    m.depth + (es.toList.map Executed.effect).count .exitedLoop =
      (es.toList.map Executed.effect).count .enteredLoop ∧
    (m.status = .running → m.next = last.next) := by
  intro last
  obtain ⟨hes, hm⟩ := (trace_course h).agrees (agrees_load source)
  refine ⟨hes, hm.cells, hm.pointer, hm.depth, ?_, hm.next⟩
  have hd := Replay.blank.depth_play (es.toList.map Executed.entry)
  have hmap : (es.toList.map Executed.entry).map Entry.effect = es.toList.map Executed.effect := by
    rw [List.map_map]
    rfl
  rw [← hm.depth, hmap] at hd
  simp only [Replay.blank] at hd
  omega

/-- A stray `]`, a walk left of the origin, a loop that is entered, repeated and
left, one that is skipped, a byte put out and the end of the input. -/
theorem trace_replays_left_of_origin :
    let t := (load "]<++[->-<][.].,").trace 20 Silent.mk
    let last := Replay.blank.play (t.1.toList.map Executed.entry)
    (load "]<++[->-<][.].,").trace 20 Silent.mk = t ∧ t.1.size = 18 ∧ last.cells 0 = 254 ∧
      (∀ i, t.2.2.1.memory.tape.get i = last.cells i) ∧
      t.2.2.1.memory.pointer = last.pointer := by
  intro t last
  obtain ⟨-, hcells, hptr, -⟩ := trace_replays (show _ = (t.1, t.2.1, t.2.2.1, t.2.2.2) from rfl)
  exact ⟨rfl, by decide +kernel, by decide +kernel, hcells, hptr⟩

end Machine

end Brainfuck
