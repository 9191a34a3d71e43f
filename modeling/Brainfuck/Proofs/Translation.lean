import Brainfuck.Proofs.Composition
import Brainfuck.Proofs.Symmetry

/-! A program may begin anywhere on the tape. Behind some moves it finds the tape as
blank around its pointer as it would be at index 0, and so does there what it does at
index 0, with all positions and all indices moved. -/

namespace Brainfuck

/-- A program of `k` times the same command. -/
def repeated (c : Command) (k : Nat) : String := String.ofList (List.replicate k c.symbol)

/-- The tape counted from another cell on, so that all indices are higher by `d`. -/
def Axis.shifted (d : Int) : Axis := ⟨d, false⟩

theorem Axis.char_shifted (d : Int) : (shifted d).char = id := by
  funext ch
  unfold char
  split <;> rfl

theorem ofSource_repeated (c : Command) (k : Nat) :
    Program.ofSource (repeated c k) = Array.replicate k c.symbol := by
  have hlayout : isLayout c.symbol = false := by cases c <;> rfl
  rw [repeated, Program.ofSource, String.toList_ofList, List.filter_replicate]
  simp [hlayout]

/-- Moves open no loop. -/
theorem unclosed_repeated {c : Command} (hc : c.IsMove) (k : Nat) :
    (Program.ofSource (repeated c k)).unclosed = [] := by
  rw [ofSource_repeated, Program.unclosed, List.filter_eq_nil_iff]
  intro i _
  rcases hc with rfl | rfl <;> simp [Array.getElem?_replicate, Command.symbol]

/-! ## The way to another cell -/

namespace Memory

/-- The pointer has come straight from index 0 to `i`, on a blank tape. -/
structure Walked (v : Memory) (i : Int) : Prop where
  pointer : v.pointer = i
  blank (j : Int) : v.tape.get j = 0
  lo : v.tape.lo = min 0 i
  hi : v.tape.hi = max 0 i

variable {v : Memory} {i : Int}

theorem walked_blank : Memory.blank.Walked 0 := ⟨rfl, Tape.get_blank, rfl, rfl⟩

/-- One move more, away from index 0. -/
theorem Walked.move {c : Command} (hc : c.IsMove) (hi : 0 ≤ i * c.stride) (h : v.Walked i) :
    (v.moveTo (v.pointer + c.stride)).Walked (i + c.stride) where
  pointer := by rw [pointer_moveTo, h.pointer]
  blank j := by rw [get_moveTo, h.blank]
  lo := by
    rw [moveTo, Tape.lo_cover, h.lo, h.pointer]
    rcases hc with rfl | rfl <;> simp only [Command.stride] at hi ⊢ <;> omega
  hi := by
    rw [moveTo, Tape.hi_cover, h.hi, h.pointer]
    rcases hc with rfl | rfl <;> simp only [Command.stride] at hi ⊢ <;> omega

/-- From where it has come to, the memory looks like a blank one. -/
theorem Walked.shows (h : v.Walked i) : (Axis.shifted i).Shows .blank v where
  pointer := h.pointer.trans (Int.add_zero i).symm
  cells j := by rw [h.blank, Memory.blank, Tape.get_blank]
  lo := by simp [h.lo, Axis.place, Axis.shifted, Memory.blank]
  hi := by simp [h.hi, Axis.place, Axis.shifted, Memory.blank]

end Memory

namespace Machine

variable {σ : Type} [Terminal σ] {m : Machine} {io io' : σ} {r : Ending} {c : Command} {k : Nat}

/-- The first `j` of `k` moves in a row. -/
theorem course_repeated (hc : c.IsMove) (io : σ) {j : Nat} (hj : j ≤ k) :
    ∃ es mid, (load (repeated c k)).Course io es .paused mid io ∧
      es.map Executed.command = List.replicate j c ∧ mid.next = j ∧ mid.status = .running ∧
      mid.memory.Walked (j * c.stride) := by
  induction j with
  | zero => exact ⟨[], _, .paused _ io, rfl, rfl, rfl, by simpa [load] using Memory.walked_blank⟩
  | succ j ih =>
    obtain ⟨es, mid, hcourse, hes, hnext, hs, hw⟩ := ih (Nat.le_of_succ_le hj)
    have hchar : mid.program[mid.next]? = some c.symbol := by
      rw [hcourse.program_eq, hnext]
      show (Program.ofSource (repeated c k))[j]? = _
      rw [ofSource_repeated, Array.getElem?_replicate, if_pos (Nat.lt_of_succ_le hj)]
    have hout : 0 ≤ (j * c.stride) * c.stride := by
      rcases hc with rfl | rfl <;> simp only [Command.stride] <;> omega
    have hlast : mid.Course io _ .paused _ io :=
      .executed (.executed hs hchar (acts_move hc mid io)) (.paused _ io)
    refine ⟨_, _, hcourse.append rfl hlast, ?_, ?_, hs, ?_⟩
    · simp [hes, List.replicate_succ']
    · exact congrArg Nat.succ hnext
    · have hstep : ((j + 1 : Nat) : Int) * c.stride = j * c.stride + c.stride := by
        rw [Int.natCast_succ, Int.add_mul, Int.one_mul]
      rw [hstep]
      exact hw.move hc hout

/-- A program about to begin on a memory that looks blank from `d`. -/
theorem seen_loadOnto {memory : Memory} {d : Int} (h : (Axis.shifted d).Shows .blank memory)
    (source : String) : Seen (.shifted d) (load source) (loadOnto memory source) where
  program := by rw [Axis.char_shifted, Array.map_id]; rfl
  ip := rfl
  memory := h
  loops := rfl
  status := rfl

/-- **The origin is not special.** Put `k` moves in one direction in front of a program.
On any terminal they are executed first, and nothing goes through the terminal. Then any
number of steps is what it is without them: the same ends for the same reason and with
the same terminal, status and loops, with all positions higher by `k` and all indices
moved by as many cells, and each cell holds what it holds without them, moved as well. -/
theorem trace_behind_moves (hc : c.IsMove) (k : Nat) {source : String} {n : Nat}
    {es : Array Executed} (h : (load source).trace n io = (es, r, m, io')) :
    let d := k * c.stride
    let moved := load (repeated c k ++ source)
    ∃ first start m₂,
      moved.trace k io = (first, .paused, start, io) ∧
      first.map Executed.command = Array.replicate k c ∧
      moved.trace (k + n) io =
        (first ++ es.map fun e => (e.along (.shifted d)).shift k, r.shift k, m₂, io') ∧
      m₂.next = k + m.next ∧ m₂.loops = m.loops.map (k + ·) ∧ m₂.status = m.status ∧
      m₂.memory.pointer = d + m.memory.pointer ∧
      ∀ i, m₂.memory.tape.get (d + i) = m.memory.tape.get i := by
  intro d moved
  have hunclosed := unclosed_repeated hc k
  have hsize : (Program.ofSource (repeated c k)).size = k := by simp [ofSource_repeated]
  obtain ⟨first, mid, hfirst, hcommands, hnext, hs, hwalked⟩ :=
    course_repeated (k := k) hc io (Nat.le_refl k)
  have hlength : first.length = k := by simpa using congrArg List.length hcommands
  have hstart := trace_append_of_inside hunclosed (hfirst.trace_eq hlength) (by simp [hs]) source
  have hbehind : Behind (.ofSource (repeated c k)) (loadOnto mid.memory source)
      (mid.retext (.ofSource (repeated c k ++ source))) := by
    refine behind_end hunclosed (Reachable.load.course hfirst) hs ?_
    rw [hfirst.program_eq, hnext]
    exact Nat.le_of_eq hsize
  -- the program alone, then on the memory that the moves leave, then behind them
  obtain ⟨m₁, hseen, hm₁⟩ :=
    (lockstep_seen _).trace (seen_loadOnto hwalked.shows source) h
  obtain ⟨m₂, hall, hm₂⟩ := hbehind.trace hseen
  rw [hsize, Retelling.ending_along] at hall
  have hmemory := hm₂.memory
  refine ⟨first.toArray, _, m₂, hstart, ?_, ?_, ?_, ?_, ?_, ?_, ?_⟩
  · simp [hcommands]
  · rw [trace_add hstart, hall, Array.map_map]
    rfl
  · rw [hm₂.next, hsize, hm₁.next]
  · rw [hm₂.loops, hm₁.loops, hsize]
  · rw [hm₂.status, hm₁.status]
  · rw [hmemory, hm₁.memory.pointer]
    rfl
  · intro i
    rw [hmemory, ← hm₁.memory.cells i]
    rfl

/-- Three moves to the left in front of a program that moves a byte from one cell to
the next, puts it out and meets a `]` that has nothing to go back to. -/
theorem trace_behind_moves_to_the_left :
    let source := ",[->+<]>.]"
    let io := Streams.ofInput [2] "? "
    ∃ es m io', (Command.left.IsMove ∧
        (load source).trace 40 io = (es, .failed (.unbalanced .closing 9), m, io')) ∧
      ∃ es₂ m₂, (load "<<<,[->+<]>.]").trace 43 io =
          (es₂, .failed (.unbalanced .closing 12), m₂, io') ∧
        io'.written .output = [2] ∧ m₂.memory.pointer = -2 ∧ m₂.memory.tape.get (-2) = 2 := by
  intro source io
  have hsource : repeated .left 3 ++ source = "<<<,[->+<]>.]" := by decide +kernel
  have hrun : let t := (load source).trace 40 io
      t.2.1 = .failed (.unbalanced .closing 9) ∧ t.2.2.2.written .output = [2] ∧
        t.2.2.1.memory.pointer = 1 ∧ t.2.2.1.memory.tape.get 1 = 2 := by decide +kernel
  rcases htr : (load source).trace 40 io with ⟨es, r, m, io'⟩
  rw [htr] at hrun
  obtain ⟨rfl, hout, hpointer, hcell⟩ := hrun
  obtain ⟨first, start, m₂, -, -, htr₂, -, -, -, hpointer₂, hcells⟩ :=
    trace_behind_moves (.inr rfl) 3 htr
  rw [hsource] at htr₂
  refine ⟨es, m, io', ⟨.inr rfl, rfl⟩, _, m₂, htr₂, hout, ?_, ?_⟩
  · rw [hpointer₂, hpointer]
    rfl
  · exact (hcells 1).trans hcell

end Machine

end Brainfuck
