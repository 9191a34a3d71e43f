import Brainfuck.Proofs.TapeHistory

/-! A tape as a single row of cells. Index 0 stands in a slot of the row that moves up
whenever cells are put in front; growth behind leaves it where it is. What is done with a
tape of two sides is done with its row, and tells the same, operation by operation and in
any number of them. -/

namespace Brainfuck

/-! ## Rows -/

/-- Cells in a row, index 0 in the slot `origin`. -/
@[ext]
structure Row where
  cells : Array Cell
  origin : Nat
  origin_lt : origin < cells.size

namespace Row

def blank : Row := ⟨#[0], 0, Nat.zero_lt_one⟩

def lowest (r : Row) : Int := -r.origin

def highest (r : Row) : Int := r.cells.size - r.origin - 1

/-- The cell in the slot of `i`. The row may begin behind it or end before it. -/
def get (r : Row) (i : Int) : Cell :=
  if 0 ≤ r.origin + i then r.cells.getD (r.origin + i).toNat 0 else 0

/-- The row with cells in front as far as `i`. -/
def grownLeft (r : Row) (i : Int) : Row where
  cells := Array.replicate (r.lowest - i).toNat 0 ++ r.cells
  origin := r.origin + (r.lowest - i).toNat
  origin_lt := by
    have := r.origin_lt
    rw [Array.size_append, Array.size_replicate]
    omega

/-- The slot of `i` once the row covers it. -/
def slot (r : Row) (i : Int) : Nat := ((r.grownLeft i).origin + i).toNat

def cover (r : Row) (i : Int) : Row where
  cells := Tape.extend (r.grownLeft i).cells (r.slot i + 1)
  origin := (r.grownLeft i).origin
  origin_lt := by
    have := (r.grownLeft i).origin_lt
    rw [Tape.size_extend]
    omega

def set (r : Row) (i : Int) (v : Cell) : Row where
  cells := (r.cover i).cells.setIfInBounds (r.slot i) v
  origin := (r.cover i).origin
  origin_lt := by
    rw [Array.size_setIfInBounds]
    exact (r.cover i).origin_lt

variable (r : Row) (i : Int)

theorem cells_grownLeft :
    (r.grownLeft i).cells = Array.replicate (r.lowest - i).toNat 0 ++ r.cells := rfl

theorem origin_grownLeft : (r.grownLeft i).origin = r.origin + (r.lowest - i).toNat := rfl

theorem cells_cover : (r.cover i).cells = Tape.extend (r.grownLeft i).cells (r.slot i + 1) := rfl

theorem origin_cover : (r.cover i).origin = (r.grownLeft i).origin := rfl

theorem cells_set (v : Cell) :
    (r.set i v).cells = (r.cover i).cells.setIfInBounds (r.slot i) v := rfl

theorem origin_set (v : Cell) : (r.set i v).origin = (r.cover i).origin := rfl

end Row

namespace Tape

/-! ## The row of a tape -/

theorem size_left_lt (t : Tape) : t.left.size < t.cells.size := by
  have := t.right_pos
  rw [size_cells, size]
  omega

/-- The left side turned round, and the right side behind it. -/
def row (t : Tape) : Row := ⟨t.cells, t.left.size, t.size_left_lt⟩

theorem cells_row (t : Tape) : t.row.cells = t.cells := rfl

theorem origin_row (t : Tape) : (t.row.origin : Int) = -t.lo := (Int.neg_neg _).symm

theorem row_blank : blank.row = Row.blank := rfl

theorem lowest_row (t : Tape) : t.row.lowest = t.lo := rfl

theorem highest_row (t : Tape) : t.row.highest = t.hi := by
  rw [Row.highest, cells_row, origin_row, size_cells, size_eq]
  omega

/-- No two tapes are in the same row. -/
theorem row_inj {t u : Tape} (h : t.row = u.row) : t = u := by
  obtain ⟨left, right, _⟩ := t
  obtain ⟨left', right', _⟩ := u
  obtain ⟨hcells, horigin⟩ := Row.mk.inj h
  obtain ⟨hleft, hright⟩ := Array.append_inj hcells (by simpa using horigin)
  rw [Array.reverse_inj] at hleft
  subst hleft hright
  rfl

theorem get_row (t : Tape) (i : Int) : t.row.get i = t.get i := by
  have hsize := t.size_eq
  have hslot : (t.row.origin : Int) + i = t.slot i := by
    rw [origin_row, slot]
    omega
  rw [Row.get, hslot, cells_row, Array.getD_eq_getD_getElem?, slot]
  by_cases hlo : t.lo ≤ i
  · rw [if_pos (by omega), ← slot]
    by_cases hhi : i ≤ t.hi
    · rw [t.getElem?_cells_slot hlo hhi, Option.getD_some]
    · rw [t.get_of_outside (.inr (Int.not_le.mp hhi)), Array.getElem?_eq_none, Option.getD_none]
      rw [size_cells, slot]
      omega
  · rw [t.get_of_outside (.inl (Int.not_le.mp hlo)), if_neg (by omega)]

theorem slot_row (t : Tape) (i : Int) : (t.row.slot i : Int) = (t.cover i).slot i := by
  have horigin := t.origin_row
  rw [slot, t.lo_cover, Row.slot, Row.origin_grownLeft, lowest_row]
  omega

theorem row_cover (t : Tape) (i : Int) : (t.cover i).row = t.row.cover i := by
  have horigin := t.origin_row
  refine Row.ext ?_ ?_
  · have hsize := t.size_eq
    have hslot := t.slot_row i
    rw [slot, t.lo_cover] at hslot
    have hbehind : t.row.slot i + 1 - (t.row.grownLeft i).cells.size = (i - t.hi).toNat := by
      rw [Row.cells_grownLeft, Array.size_append, Array.size_replicate, cells_row, size_cells,
        lowest_row]
      omega
    rw [Row.cells_cover, extend_eq, hbehind, Row.cells_grownLeft, lowest_row]
    exact t.cells_cover i
  · have hgrown := (t.cover i).origin_row
    rw [t.lo_cover] at hgrown
    rw [Row.origin_cover, Row.origin_grownLeft, lowest_row]
    omega

theorem row_set (t : Tape) (i : Int) (v : Cell) : (t.set i v).row = t.row.set i v := by
  refine Row.ext ?_ ?_
  · have hslot : ((t.cover i).slot i).toNat = t.row.slot i := by
      rw [← slot_row, Int.toNat_natCast]
    rw [Row.cells_set, ← t.row_cover, ← hslot]
    exact t.cells_set i v
  · have hset := (t.set i v).origin_row
    have hcover := (t.cover i).origin_row
    rw [t.lo_set] at hset
    rw [t.lo_cover] at hcover
    rw [Row.origin_set, ← t.row_cover]
    omega

/-! ## Operations on the row -/

/-- Does to a row what the operation does to a tape. -/
def Op.applyRow (op : Op) (r : Row) : Row :=
  match op.act with
  | .get => r
  | .ensure | .touch => r.cover op.index.toInt
  | .put v => r.set op.index.toInt v
  | .increment => r.set op.index.toInt (r.get op.index.toInt).increment
  | .decrement => r.set op.index.toInt (r.get op.index.toInt).decrement

/-- What the operation tells of a row. -/
def Op.answerRow (op : Op) (r : Row) : Answer :=
  match op.act with
  | .ensure => .slot (r.slot op.index.toInt).toUInt64
  | _ => .cell ((op.applyRow r).get op.index.toInt)

theorem row_apply (op : Op) (t : Tape) : (op.apply t).row = op.applyRow t.row := by
  obtain ⟨index, act⟩ := op
  cases act with
  | get => rfl
  | ensure | touch => exact t.row_cover _
  | put v => exact t.row_set _ v
  | increment | decrement =>
    rw [Op.applyRow, get_row]
    exact t.row_set _ _

theorem answer_row (op : Op) {t : Tape} (h : (op.apply t).size < 0x8000000000000000) :
    op.answerRow t.row = op.answer t := by
  have hcell : Answer.cell ((op.applyRow t.row).get op.index.toInt) =
      .cell ((op.apply t).load op.index) := by
    rw [← row_apply, get_row, load_eq h]
  obtain ⟨index, act⟩ := op
  cases act with
  | ensure =>
    have ht := Nat.lt_of_le_of_lt (Op.size_le_apply ⟨index, .ensure⟩ t) h
    have hslot : t.row.slot index.toInt = (t.extent.slot index).toNat := by
      rw [← Int.ofNat_inj, slot_row, slot, toNat_slot ht]
    rw [Op.answerRow, hslot]
    exact congrArg Answer.slot (UInt64.ofNat_toNat ..)
  | get | touch | put | increment | decrement => exact hcell

end Tape

open Tape (Op Answer)

/-- Does some operations with a row one after the other. -/
def Row.perform (r : Row) : List Op → List Answer × Row
  | [] => ([], r)
  | op :: ops =>
    let (answers, r') := (op.applyRow r).perform ops
    (op.answerRow r :: answers, r')

namespace Tape

/-- Any operations lead from the row of a tape to the row of the tape they lead to, and they
tell the same on the way. -/
theorem perform_row (ops : List Op) {t : Tape}
    (h : (t.perform ops).2.size < 0x8000000000000000) :
    t.row.perform ops = Prod.map id row (t.perform ops) := by
  induction ops generalizing t with
  | nil => rfl
  | cons op ops ih =>
    have hfirst := Nat.lt_of_le_of_lt (Op.size_le_perform ops (op.apply t)) h
    rw [Row.perform, ← row_apply, ih h, answer_row op hfirst]
    rfl

/-- **A tape is a row whose origin moves.** Do the same with a blank tape and with a blank
row, as long as a word can count the cells. Both tell the same. The tape then has this row,
is the only one to have it, reads like it at every index, and covers the same indices; and
the words about the one are those about the other. -/
theorem made_row (ops : List Op) (h : (blank.perform ops).2.size < 0x8000000000000000) :
    let t := (blank.perform ops).2
    let r := (Row.blank.perform ops).2
    (Row.blank.perform ops).1 = (blank.perform ops).1 ∧ (∀ u : Tape, u.row = r ↔ u = t) ∧
    (∀ i, r.get i = t.get i) ∧ r.lowest = t.lo ∧ r.highest = t.hi ∧
    t.extent = ⟨r.origin.toUInt64, r.cells.size.toUInt64⟩ := by
  intro t r
  have hperform := perform_row ops h
  rw [row_blank] at hperform
  have hrow : t.row = r := (congrArg Prod.snd hperform).symm
  refine ⟨congrArg Prod.fst hperform, fun u => ?_, ?_⟩
  · rw [← hrow]
    exact ⟨row_inj, congrArg row⟩
  · rw [← hrow]
    refine ⟨t.get_row, t.lowest_row, t.highest_row, ?_⟩
    rw [cells_row, size_cells]
    rfl

/-- The row has grown in front after the write, which then stands two slots further on. -/
example : (Row.blank.perform [⟨1, .put 7⟩, ⟨-2, .ensure⟩, ⟨1, .get⟩]).1 =
    [.cell 7, .slot 0, .cell 7] := by decide +kernel

end Tape

end Brainfuck
