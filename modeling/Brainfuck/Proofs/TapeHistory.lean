import Brainfuck.Proofs.Addressing

/-! A tape is a total map. Whatever is done with it, in whatever order, its cells are those
of the map from all integers to bytes to which the same was done, beginning with zeros;
and it is laid down from index 0 as far as a cell was ever asked for. Looking at a cell
lays nothing down. -/

namespace Brainfuck.Tape

/-! ## Operations -/

inductive Act where
  /-- Looks at the cell, which need not be there. -/
  | get
  /-- Lays the cell down and tells its slot. -/
  | ensure
  /-- Lays the cell down and looks at it. -/
  | touch
  | put (v : Cell)
  | increment
  | decrement
  deriving DecidableEq, Repr

structure Op where
  index : Int64
  act : Act
  deriving DecidableEq

inductive Answer where
  | cell (v : Cell)
  | slot (s : UInt64)
  deriving DecidableEq

namespace Op

def apply (op : Op) (t : Tape) : Tape :=
  match op.act with
  | .get => t
  | .ensure | .touch => t.cover op.index.toInt
  | .put v => t.set op.index.toInt v
  | .increment => t.modify Cell.increment op.index.toInt
  | .decrement => t.modify Cell.decrement op.index.toInt

/-- What the operation tells: the slot, or the cell as it then is. -/
def answer (op : Op) (t : Tape) : Answer :=
  match op.act with
  | .ensure => .slot (t.extent.slot op.index)
  | _ => .cell ((op.apply t).load op.index)

end Op

/-- Does some operations one after the other. -/
def perform (t : Tape) : List Op → List Answer × Tape
  | [] => ([], t)
  | op :: ops =>
    let (answers, t') := (op.apply t).perform ops
    (op.answer t :: answers, t')

/-! ## What they come to -/

/-- The value that an act leaves of a value. -/
def Act.value : Act → Nat → Nat
  | .get, n | .ensure, n | .touch, n => n
  | .put v, _ => v.toNat
  | .increment, n => (n + 1) % 256
  | .decrement, n => (n + 255) % 256

namespace Op

def write (f : Int → Nat) (op : Op) : Int → Nat :=
  fun i => if i = op.index.toInt then op.act.value (f i) else f i

def laid? (op : Op) : Option Int := if op.act = .get then none else some op.index.toInt

/-- The map that some operations write, beginning with zeros. -/
def written (ops : List Op) : Int → Nat := ops.foldl write fun _ => 0

/-- The indices that were laid down. -/
def laid (ops : List Op) : List Int := ops.filterMap laid?

/-- `op.Answers past a`: behind the operations `past`, it is right for `op` to tell `a`. -/
def Answers (op : Op) (past : List Op) (a : Answer) : Prop :=
  match a with
  | .cell v => op.act ≠ .ensure ∧ v.toNat = written (past ++ [op]) op.index.toInt
  | .slot s => op.act = .ensure ∧
      ∃ lo, (0 :: laid (past ++ [op])).min? = some lo ∧ (s.toNat : Int) = op.index.toInt - lo

variable {t : Tape} {op : Op} {ops past : List Op}

theorem written_append (past : List Op) (op : Op) :
    written (past ++ [op]) = op.write (written past) := by
  rw [written, List.foldl_append]
  rfl

theorem laid_append (past : List Op) (op : Op) :
    laid (past ++ [op]) = laid past ++ op.laid?.toList := by
  rw [laid, List.filterMap_append]
  cases h : op.laid? <;> simp [laid, h]

/-! ## One operation -/

/-- What an operation makes of its cell. -/
def change (op : Op) (c : Cell) : Cell :=
  match op.act with
  | .get | .ensure | .touch => c
  | .put v => v
  | .increment => c.increment
  | .decrement => c.decrement

theorem toNat_change (op : Op) (c : Cell) : (op.change c).toNat = op.act.value c.toNat := by
  unfold change
  split <;> rename_i h <;> rw [h, Act.value]
  · exact Cell.toNat_increment c
  · exact Cell.toNat_decrement c

/-- An operation has to do with no other cell. -/
theorem get_apply (op : Op) (t : Tape) (i : Int) :
    (op.apply t).get i = if i = op.index.toInt then op.change (t.get i) else t.get i := by
  obtain ⟨index, act⟩ := op
  cases act <;> simp only [apply, change, get_cover, modify, get_set, ite_self] <;>
    split <;> simp_all

theorem lo_apply (op : Op) (t : Tape) :
    (op.apply t).lo = op.laid?.elim t.lo (min t.lo) := by
  obtain ⟨index, act⟩ := op
  cases act <;> simp [apply, laid?, modify, lo_cover, lo_set]

theorem hi_apply (op : Op) (t : Tape) :
    (op.apply t).hi = op.laid?.elim t.hi (max t.hi) := by
  obtain ⟨index, act⟩ := op
  cases act <;> simp [apply, laid?, modify, hi_cover, hi_set]

theorem size_le_apply (op : Op) (t : Tape) : t.size ≤ (op.apply t).size := by
  have hsize := t.size_eq
  have hsize' := (op.apply t).size_eq
  rw [lo_apply, hi_apply] at hsize'
  cases h : op.laid? <;> simp only [h, Option.elim_none, Option.elim_some] at hsize' <;> omega

/-- The tape is what `past` has made of a blank one. -/
structure Made (past : List Op) (t : Tape) : Prop where
  get (i : Int) : (t.get i).toNat = written past i
  spans : t.Spans (laid past)

theorem made_blank : Made [] blank := ⟨fun i => by simp [written], spans_blank⟩

theorem Made.apply (h : Made past t) (op : Op) : Made (past ++ [op]) (op.apply t) where
  get i := by
    rw [get_apply, written_append, write, ← h.get i]
    split
    · exact op.toNat_change _
    · rfl
  spans := by
    have hlo := op.lo_apply t
    have hhi := op.hi_apply t
    rw [laid_append]
    cases hop : op.laid? with
    | none =>
      rw [hop, Option.elim_none] at hlo hhi
      rw [Option.toList_none, List.append_nil]
      exact ⟨hlo ▸ h.spans.lo, hhi ▸ h.spans.hi⟩
    | some i =>
      rw [hop, Option.elim_some] at hlo hhi
      exact h.spans.append hlo hhi

theorem Made.answers (h : Made past t) (op : Op) (hsize : (op.apply t).size < 0x8000000000000000) :
    op.Answers past (op.answer t) := by
  have hafter := h.apply op
  have hbefore : t.size < 0x8000000000000000 := Nat.lt_of_le_of_lt (op.size_le_apply t) hsize
  have hcell : ((op.apply t).load op.index).toNat = written (past ++ [op]) op.index.toInt := by
    rw [load_eq hsize, hafter.get]
  unfold answer
  split
  · rename_i hact
    refine ⟨hact, _, hafter.spans.lo, ?_⟩
    rw [toNat_slot hbefore, Op.apply, hact]
  · exact ⟨‹_›, hcell⟩

/-! ## Operations in a row -/

theorem size_le_perform (ops : List Op) (t : Tape) : t.size ≤ (t.perform ops).2.size := by
  induction ops generalizing t with
  | nil => exact Nat.le_refl _
  | cons op ops ih => exact Nat.le_trans (op.size_le_apply t) (ih _)

theorem Made.perform (h : Made past t) (ops : List Op) : Made (past ++ ops) (t.perform ops).2 := by
  induction ops generalizing t past with
  | nil => rwa [List.append_nil]
  | cons op ops ih =>
    rw [List.append_cons]
    exact ih (h.apply op)

theorem Made.answers_perform (h : Made past t) {ops : List Op}
    (hsize : (t.perform ops).2.size < 0x8000000000000000) {before rest : List Op}
    (hops : ops = before ++ op :: rest) :
    ∃ a, (t.perform ops).1[before.length]? = some a ∧ op.Answers (past ++ before) a := by
  induction ops generalizing t past before with
  | nil => simp at hops
  | cons first ops ih =>
    cases before with
    | nil =>
      obtain ⟨rfl, rfl⟩ := List.cons.inj hops
      have hfirst := Nat.lt_of_le_of_lt (size_le_perform ops (first.apply t)) hsize
      exact ⟨_, rfl, (List.append_nil past).symm ▸ h.answers first hfirst⟩
    | cons _ before =>
      obtain ⟨rfl, htail⟩ := List.cons.inj hops
      obtain ⟨a, ha, hright⟩ := ih (h.apply first) hsize htail
      exact ⟨a, ha, List.append_cons past first before ▸ hright⟩

/-- What only looks may as well be left out. -/
theorem perform_filter_get (ops : List Op) (t : Tape) :
    (t.perform (ops.filter (·.act ≠ .get))).2 = (t.perform ops).2 := by
  induction ops generalizing t with
  | nil => rfl
  | cons op ops ih =>
    by_cases hop : op.act = .get
    · have hsame : op.apply t = t := by rw [apply, hop]
      rw [List.filter_cons_of_neg (by simp [hop]), ih, perform, hsame]
    · rw [List.filter_cons_of_pos (by simp [hop]), perform, perform, ih]

/-! ## Operations on two cells -/

variable {a b : Op}

theorem apply_comm (h : a.index ≠ b.index) (t : Tape) :
    b.apply (a.apply t) = a.apply (b.apply t) := by
  have hne : a.index.toInt ≠ b.index.toInt := fun heq => h (Int64.toInt_inj.mp heq)
  refine eq_of_get_eq ?_ ?_ fun i => ?_
  · simp only [lo_apply]
    cases a.laid? <;> cases b.laid? <;> simp only [Option.elim_none, Option.elim_some]
    omega
  · simp only [hi_apply]
    cases a.laid? <;> cases b.laid? <;> simp only [Option.elim_none, Option.elim_some]
    omega
  · simp only [get_apply]
    by_cases hb : i = b.index.toInt
    · subst hb
      simp [hne.symm]
    · simp [hb]

/-- What is told of one cell has nothing to do with another one. -/
theorem answer_apply (h : a.index ≠ b.index) (hb : b.act ≠ .ensure)
    (hsize : (b.apply (a.apply t)).size < 0x8000000000000000) :
    b.answer (a.apply t) = b.answer t := by
  have hne : b.index.toInt ≠ a.index.toInt := fun heq => h (Int64.toInt_inj.mp heq).symm
  have hsize' : (b.apply t).size < 0x8000000000000000 := by
    rw [apply_comm h] at hsize
    exact Nat.lt_of_le_of_lt (a.size_le_apply _) hsize
  have hcell (u : Tape) : b.answer u = .cell ((b.apply u).load b.index) := by
    unfold answer
    split
    · contradiction
    · rfl
  have hget (u : Tape) : (b.apply u).get b.index.toInt = b.change (u.get b.index.toInt) := by
    rw [get_apply, if_pos rfl]
  rw [hcell, hcell, load_eq hsize, load_eq hsize', hget, hget, get_apply, if_neg hne]

end Op

/-- **A tape is a total map.** Let any operations be done with a blank tape, at any indices,
as long as it remains short enough for a word to count its cells. Each index then reads as
in the map that the same operations write, beginning with zeros, also by way of its slot.
The tape is laid down from the lowest to the highest index that was to be laid down, 0
included, and nowhere else. Each operation has told what the operations up to it make of
its cell, or how far the cell is from the lowest one. Looking at cells makes no difference;
growth adds zeros in front of the row or behind it; and operations on two cells may change
places. -/
theorem perform_as_map (ops : List Op) (h : (blank.perform ops).2.size < 0x8000000000000000) :
    let t := (blank.perform ops).2
    (∀ i, (t.get i).toNat = Op.written ops i) ∧ (∀ i : Int64, t.load i = t.get i.toInt) ∧
    (0 :: Op.laid ops).min? = some t.extent.lowest.toInt ∧
    (0 :: Op.laid ops).max? = some t.extent.highest.toInt ∧
    (t.extent.len.toNat : Int) = t.extent.highest.toInt - t.extent.lowest.toInt + 1 ∧
    t.isEmpty = false ∧
    (∀ past op rest, ops = past ++ op :: rest →
      ∃ a, (blank.perform ops).1[past.length]? = some a ∧ op.Answers past a) ∧
    (blank.perform (ops.filter (·.act ≠ .get))).2 = t ∧
    (∀ i, (t.cover i).cells = Array.replicate (t.lo - i).toNat 0 ++ t.cells ++
      Array.replicate (i - t.hi).toNat 0) ∧
    ∀ a b : Op, a.index ≠ b.index → b.apply (a.apply t) = a.apply (b.apply t) ∧
      (b.act ≠ .ensure → (b.apply (a.apply t)).size < 0x8000000000000000 →
        b.answer (a.apply t) = b.answer t) := by
  intro t
  have hmade : Op.Made ops t := Op.made_blank.perform ops
  rw [toInt_lowest h, toInt_highest h, toNat_len h]
  exact ⟨hmade.get, load_eq h, hmade.spans.lo, hmade.spans.hi, t.size_eq, t.isEmpty_eq_false,
    fun past op rest hops => Op.made_blank.answers_perform h hops, Op.perform_filter_get ops blank,
    t.cells_cover, fun a b hab => ⟨Op.apply_comm hab t, Op.answer_apply hab⟩⟩

/-- Growth on both sides between the writes. The cell at index 2 is written before the tape
grows to the left and read after it; the slot asked for counts from the new lowest index. -/
theorem perform_as_map_grown_both_ways :
    let ops : List Op :=
      [⟨2, .put 255⟩, ⟨-3, .decrement⟩, ⟨7, .get⟩, ⟨2, .increment⟩, ⟨-1, .ensure⟩]
    let t := (blank.perform ops).2
    t.size < 0x8000000000000000 ∧
      (blank.perform ops).1 = [.cell 255, .cell 255, .cell 0, .cell 0, .slot 2] ∧
      (t.get 2).toNat = 0 ∧ (t.get (-3)).toNat = 255 ∧ t.load (-3) = t.get (-3) ∧
      t.extent.lowest.toInt = -3 ∧ t.extent.highest.toInt = 2 ∧
      (t.extent.len.toNat : Int) = t.extent.highest.toInt - t.extent.lowest.toInt + 1 := by
  intro ops t
  have hsize : t.size < 0x8000000000000000 := by decide +kernel
  obtain ⟨hget, hload, hlo, hhi, hlen, -⟩ := perform_as_map ops hsize
  exact ⟨hsize, by decide +kernel, hget 2, hget (-3), hload (-3), (Option.some.inj hlo).symm,
    (Option.some.inj hhi).symm, hlen⟩

end Brainfuck.Tape
