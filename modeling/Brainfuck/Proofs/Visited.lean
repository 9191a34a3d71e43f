import Brainfuck.Proofs.Transition
import Brainfuck.Terminal.Silent

/-! How far a tape reaches. A machine lays down the cells that its pointer comes to and no
others: what it writes it writes to the cell it stands on, and what it looks at need not
be there. So the extent of its tape is the range that the pointer has been through, and
no wider than the number of its moves. -/

namespace Brainfuck

/-- Whether a step moved the pointer. -/
def Outcome.isMove : Outcome → Bool
  | .executed e => e.command = .right || e.command = .left
  | _ => false

/-- The pointer stands on a cell that is laid down. -/
def Memory.Inside (v : Memory) : Prop := v.tape.lo ≤ v.pointer ∧ v.pointer ≤ v.tape.hi

namespace Machine

variable {σ : Type} [Terminal σ] {m m' : Machine} {io io' : σ} {o : Outcome} {source : String}
  {past : List (Outcome × Machine)}

/-! ## Paths -/

/-- `Path source past m`: the steps `past`, each with what came of it and the machine it
left, led from the loaded source to `m`. Each may have had a terminal of its own. -/
inductive Path (source : String) : List (Outcome × Machine) → Machine → Prop where
  | load : Path source [] (load source)
  | step {σ : Type} [Terminal σ] {past : List (Outcome × Machine)} {m m' : Machine} {io io' : σ}
      {o : Outcome} (h : Path source past m) (hs : m.step io = (o, m', io')) :
      Path source (past ++ [(o, m')]) m'

theorem reachable_iff_path : Reachable source m ↔ ∃ past, Path source past m := by
  constructor
  · intro h
    induction h with
    | load => exact ⟨[], .load⟩
    | step _ hs ih =>
      obtain ⟨past, h⟩ := ih
      exact ⟨_, h.step hs⟩
  · intro ⟨past, h⟩
    induction h with
    | load => exact .load
    | step _ hs ih => exact ih.step hs

/-- Where the pointer stood after each of some steps. -/
def pointers (past : List (Outcome × Machine)) : List Int := past.map (·.2.memory.pointer)

/-- How many of some steps were moves. -/
def moves (past : List (Outcome × Machine)) : Nat := past.countP (·.1.isMove)

/-! ## Steps -/

/-- What a step does to the extent: no more than to lay down the cell that the pointer comes
to, which is the next one to the left or right in a move, and else the same. -/
structure Reaches (o : Outcome) (v v' : Memory) : Prop where
  lo : v'.tape.lo = min v.tape.lo v'.pointer
  hi : v'.tape.hi = max v.tape.hi v'.pointer
  near : (v'.pointer - v.pointer).natAbs = if o.isMove then 1 else 0

theorem reaches_self {v : Memory} (hv : v.Inside) (ho : o.isMove = false) : Reaches o v v where
  lo := (Int.min_eq_left hv.1).symm
  hi := (Int.max_eq_left hv.2).symm
  near := by simp [ho]

theorem reaches_store {v : Memory} (ho : o.isMove = false) (c : Cell) :
    Reaches o v (v.store c) where
  lo := Tape.lo_set _ _ _
  hi := Tape.hi_set _ _ _
  near := by simp [ho]

theorem reaches_move {v : Memory} {i : Int} (ho : o.isMove = true)
    (hnext : (i - v.pointer).natAbs = 1) : Reaches o v (v.moveTo i) where
  lo := Tape.lo_cover _ _
  hi := Tape.hi_cover _ _
  near := by rw [ho, if_pos rfl]; exact hnext

theorem Acts.reaches {c : Command} {e : Effect} (ha : m.Acts io c e m' io')
    (hm : m.memory.Inside) :
    Reaches (.executed ⟨m.next, c, m.memory.pointer, m.current, e⟩) m.memory m'.memory := by
  cases ha with
  | right | left => exact reaches_move rfl (by omega)
  | increment | decrement | input => exact reaches_store rfl _
  | output | skip | enter | exit | stray | again => exact reaches_self hm rfl

theorem Transition.reaches (ht : Transition m io o m' io') (hm : m.memory.Inside) :
    Reaches o m.memory m'.memory := by
  cases ht with
  | executed _ _ ha => exact ha.reaches hm
  | idle | failed | ended | endRefused => exact reaches_self hm rfl

/-- Only `>` and `<` are moves. -/
theorem Transition.isMove_eq_false (ht : Transition m io o m' io')
    (hr : m.program[m.next]? ≠ some '>') (hl : m.program[m.next]? ≠ some '<') :
    o.isMove = false := by
  cases ht with
  | @executed c _ _ _ _ hc _ =>
    cases c with
    | right => exact absurd hc hr
    | left => exact absurd hc hl
    | _ => rfl
  | idle | failed | ended | endRefused => rfl

/-- A step that is no move leaves the extent as it is, whatever comes of it. -/
theorem Transition.extent_eq (ht : Transition m io o m' io') (hm : m.memory.Inside)
    (ho : o.isMove = false) :
    m'.memory.tape.lo = m.memory.tape.lo ∧ m'.memory.tape.hi = m.memory.tape.hi := by
  obtain ⟨hlo, hhi, hnear⟩ := ht.reaches hm
  obtain ⟨hle, hge⟩ := hm
  simp only [ho, Bool.false_eq_true, if_false] at hnear
  omega

/-! ## Runs -/

/-- What holds of a memory after some steps. -/
structure Visits (past : List (Outcome × Machine)) (v : Memory) : Prop where
  spans : v.tape.Spans (pointers past)
  inside : v.Inside
  width : v.tape.hi - v.tape.lo ≤ moves past

theorem Path.visits (h : Path source past m) : Visits past m.memory := by
  induction h with
  | load => exact ⟨Tape.spans_blank, ⟨Int.le_refl 0, Int.le_refl 0⟩, Int.le_refl 0⟩
  | @step _ _ past m m' _ _ o _ hs ih =>
    obtain ⟨hlo, hhi, hnear⟩ := (step_eq_iff.mp hs).reaches ih.inside
    have hwidth := ih.width
    obtain ⟨hle, hge⟩ := ih.inside
    have hmoves : moves (past ++ [(o, m')]) = moves past + if o.isMove then 1 else 0 := by
      simp [moves, List.countP_append, List.countP_singleton]
    refine ⟨?_, ⟨?_, ?_⟩, ?_⟩
    · rw [pointers, List.map_append]
      exact ih.spans.append hlo hhi
    · omega
    · omega
    · rw [hmoves]
      omega

/-- **A tape reaches as far as its pointer has been.** Take the machine that any steps have
led to, whether it runs, has come to its end or has failed. Its tape is laid down from the
lowest to the highest cell where the pointer stood, from index 0 at the beginning to where
it stands now. All other cells read as zero. The pointer is no further from index 0, and
the tape no longer beyond its first cell, than there were moves. A step on any character
but `>` and `<` leaves the extent of the tape as it is, also if it fails. -/
theorem extent_of_visits :
    (Reachable source m ↔ ∃ past, Path source past m) ∧
    ∀ past, Path source past m →
      let tape := m.memory.tape
      (0 :: pointers past).min? = some tape.lo ∧ (0 :: pointers past).max? = some tape.hi ∧
      (tape.size : Int) = tape.hi - tape.lo + 1 ∧ m.memory.Inside ∧
      (∀ i, i < tape.lo ∨ tape.hi < i → tape.get i = 0) ∧
      m.memory.pointer.natAbs ≤ moves past ∧ tape.size - 1 ≤ moves past ∧
      ∀ {σ : Type} [Terminal σ] (io io' : σ) (o : Outcome) (m' : Machine),
        m.step io = (o, m', io') → m.program[m.next]? ≠ some '>' →
        m.program[m.next]? ≠ some '<' →
          m'.memory.tape.lo = tape.lo ∧ m'.memory.tape.hi = tape.hi := by
  refine ⟨reachable_iff_path, ?_⟩
  intro past h
  dsimp only
  obtain ⟨⟨hmin, hmax⟩, hin, hwidth⟩ := h.visits
  have hsize := m.memory.tape.size_eq
  have hlo := m.memory.tape.lo_nonpos
  have hhi := m.memory.tape.hi_nonneg
  have hpointer : m.memory.pointer.natAbs ≤ moves past := by
    obtain ⟨hle, hge⟩ := hin
    omega
  refine ⟨hmin, hmax, hsize, hin, fun i => m.memory.tape.get_of_outside, hpointer, by omega, ?_⟩
  intro σ _ io io' o m' hs hr hl
  have ht := step_eq_iff.mp hs
  exact ht.extent_eq hin (ht.isMove_eq_false hr hl)

/-- The pointer has been on both sides of index 0 before a `[` without end fails. -/
theorem extent_of_visits_past_an_error :
    ∃ past m, (Path "<+>>[" past m ∧ m.status = .failed ∧ moves past = 3 ∧
        past.getLast?.map (·.1) = some (.failed (.unbalanced .opening 4))) ∧
      (0 :: pointers past).min? = some m.memory.tape.lo ∧
      (0 :: pointers past).max? = some m.memory.tape.hi ∧
      m.memory.tape.lo = -1 ∧ m.memory.tape.hi = 1 ∧ m.memory.tape.size - 1 ≤ 3 := by
  obtain ⟨past, m, h, hfacts⟩ : ∃ past m, Path "<+>>[" past m ∧ m.status = .failed ∧
      moves past = 3 ∧ past.getLast?.map (·.1) = some (.failed (.unbalanced .opening 4)) ∧
      m.memory.tape.lo = -1 ∧ m.memory.tape.hi = 1 := by
    have hnext {past : List (Outcome × Machine)} {m : Machine} (h : Path "<+>>[" past m) :
        Path "<+>>[" (past ++ [((m.step Silent.mk).1, (m.step Silent.mk).2.1)])
          (m.step Silent.mk).2.1 := h.step rfl
    exact ⟨_, _, hnext (hnext (hnext (hnext (hnext .load)))), by decide +kernel⟩
  obtain ⟨hs, hmoves, hlast, hlo, hhi⟩ := hfacts
  obtain ⟨hmin, hmax, -, -, -, -, hsize, -⟩ := extent_of_visits.2 past h
  rw [hmoves] at hsize
  exact ⟨past, m, ⟨h, hs, hmoves, hlast⟩, hmin, hmax, hlo, hhi, hsize⟩

end Machine

end Brainfuck
