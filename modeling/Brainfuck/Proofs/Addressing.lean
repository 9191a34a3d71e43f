import Brainfuck.Tape.Extent
import Brainfuck.Tape.Lemmas

/-! Slots and indices in machine words. While a tape is shorter than 2 ^ 63 cells, the
words that say where it lies stand for the numbers they are meant to be. So the slot of
an index holds its cell, and every index that has no slot reads as zero. -/

namespace Brainfuck

/-! ## Signed and unsigned words -/

theorem toInt_toInt64 {u : UInt64} (h : u.toNat < 0x8000000000000000) :
    u.toInt64.toInt = u.toNat := by
  rw [Int64.toInt, UInt64.toBitVec_toInt64, BitVec.toInt_eq_toNat_cond, UInt64.toNat_toBitVec]
  omega

/-- A negative number is written as the word 2 ^ 64 above it. -/
theorem toInt_eq_toNat (i : Int64) :
    i.toInt = if i.toUInt64.toNat < 0x8000000000000000 then (i.toUInt64.toNat : Int)
      else i.toUInt64.toNat - 0x10000000000000000 := by
  have hi : i.toInt = i.toUInt64.toBitVec.toInt := rfl
  rw [hi, BitVec.toInt_eq_toNat_cond, UInt64.toNat_toBitVec]
  split <;> omega

namespace Extent

variable {e : Extent}

/-! ## The indices in the row -/

theorem Fits.origin_lt (h : e.Fits) : e.origin.toNat < e.len.toNat :=
  UInt64.lt_iff_toNat_lt.mp h.1

theorem Fits.toInt_lowest (h : e.Fits) : e.lowest.toInt = -e.origin.toNat := by
  have hlt := h.origin_lt
  have hlen := h.2
  rw [lowest, Int64.toInt_neg, toInt_toInt64 (by omega), Int.bmod_eq_of_le (by omega) (by omega)]

theorem Fits.toNat_behind (h : e.Fits) : e.behind.toNat = e.len.toNat - e.origin.toNat - 1 := by
  have hlt := h.origin_lt
  have hlen := h.2
  rw [behind, UInt64.toNat_sub, UInt64.toNat_sub, UInt64.toNat_one]
  omega

theorem Fits.toInt_highest (h : e.Fits) :
    e.highest.toInt = e.len.toNat - e.origin.toNat - 1 := by
  have hlt := h.origin_lt
  have hlen := h.2
  have hbehind := h.toNat_behind
  rw [highest, toInt_toInt64 (by omega), hbehind]
  omega

/-! ## Slots of indices -/

theorem toNat_distance (a b : Int64) : (distance a b).toNat = (a.toInt - b.toInt).natAbs := by
  have ha := toInt_eq_toNat a
  have hb := toInt_eq_toNat b
  have hna := a.toUInt64.toNat_lt
  have hnb := b.toUInt64.toNat_lt
  rw [distance]
  split <;> rename_i h <;> rw [Int64.lt_iff_toInt_lt] at h <;> rw [UInt64.toNat_sub] <;> omega

theorem toNat_offset {slot : UInt64} {i : Int64} (h0 : 0 ≤ slot.toNat + i.toInt)
    (h : slot.toNat + i.toInt < 0x10000000000000000) :
    ((offset slot i).toNat : Int) = slot.toNat + i.toInt := by
  have hi := toInt_eq_toNat i
  have hn := i.toUInt64.toNat_lt
  rw [offset, UInt64.toNat_add]
  omega

theorem Fits.slot?_eq (h : e.Fits) (i : Int64) :
    e.slot? i = if 0 ≤ e.origin.toNat + i.toInt then some (offset e.origin i) else none := by
  have hlt := h.origin_lt
  have hlen := h.2
  have hi := toInt_eq_toNat i
  have hn := i.toUInt64.toNat_lt
  have hneg : i < 0 ↔ i.toInt < 0 := Int64.lt_iff_toInt_lt
  have hwrap : offset e.origin i < e.origin ↔ i.toInt < 0 ∧ 0 ≤ e.origin.toNat + i.toInt := by
    rw [UInt64.lt_iff_toNat_lt, offset, UInt64.toNat_add]
    omega
  rw [slot?]
  simp only [hneg, hwrap, decide_eq_decide]
  split <;> rename_i hs
  · rw [if_pos (by omega)]
  · rw [if_neg (by omega)]

/-- The slot of an index is the sum of the origin and the index, unless that is negative. -/
theorem Fits.map_slot? (h : e.Fits) (i : Int64) :
    (e.slot? i).map (fun s => (s.toNat : Int)) =
      if 0 ≤ e.origin.toNat + i.toInt then some (e.origin.toNat + i.toInt) else none := by
  have hlt := h.origin_lt
  have hlen := h.2
  have hi := i.toInt_lt
  rw [h.slot?_eq]
  split
  · rw [Option.map_some, toNat_offset ‹_› (by omega)]
  · rfl

/-! ## Growth -/

theorem toNat_missing (e : Extent) (i : Int64) :
    (e.missing i).toNat = (e.lowest.toInt - i.toInt).toNat := by
  rw [missing]
  split <;> rename_i hi <;> rw [Int64.lt_iff_toInt_lt] at hi
  · rw [toNat_distance]
    omega
  · rw [UInt64.toNat_zero]
    omega

/-- The slot of an index counts from the lowest index, once that is not above it. -/
theorem Fits.toNat_slot (h : e.Fits) (i : Int64) :
    ((e.slot i).toNat : Int) = i.toInt - min e.lowest.toInt i.toInt := by
  have hlt := h.origin_lt
  have hlen := h.2
  have hlowest := h.toInt_lowest
  have hmissing := e.toNat_missing i
  have hi := i.le_toInt
  have hi' := i.toInt_lt
  have horigin : ((e.grownLeft i).origin.toNat : Int) = -min e.lowest.toInt i.toInt := by
    rw [grownLeft, UInt64.toNat_add, hmissing]
    omega
  rw [slot, toNat_offset] <;> omega

end Extent

/-! ## The words of a tape -/

namespace Tape

variable {t : Tape}

theorem toNat_len (h : t.size < 0x8000000000000000) : t.extent.len.toNat = t.size :=
  UInt64.toNat_ofNat_of_lt' (by unfold UInt64.size; omega)

theorem toNat_origin (h : t.size < 0x8000000000000000) : t.extent.origin.toNat = t.left.size := by
  have hsize : t.left.size ≤ t.size := Nat.le_add_right _ _
  exact UInt64.toNat_ofNat_of_lt' (by unfold UInt64.size; omega)

theorem fits_extent (h : t.size < 0x8000000000000000) : t.extent.Fits := by
  have hright := t.right_pos
  have hsize : t.size = t.left.size + t.right.size := rfl
  refine ⟨UInt64.lt_iff_toNat_lt.mpr ?_, ?_⟩
  · rw [toNat_len h, toNat_origin h]
    omega
  · rw [toNat_len h]
    exact h

theorem toInt_lowest (h : t.size < 0x8000000000000000) : t.extent.lowest.toInt = t.lo := by
  rw [(fits_extent h).toInt_lowest, toNat_origin h, lo]

theorem toInt_highest (h : t.size < 0x8000000000000000) : t.extent.highest.toInt = t.hi := by
  rw [(fits_extent h).toInt_highest, toNat_len h, toNat_origin h, size, hi]
  omega

theorem toNat_slot (h : t.size < 0x8000000000000000) (i : Int64) :
    ((t.extent.slot i).toNat : Int) = i.toInt - (t.cover i.toInt).lo := by
  rw [(fits_extent h).toNat_slot, toInt_lowest h, lo_cover]

/-- The cell that stands in the slot of `i`, if the row has one there. -/
def stored? (t : Tape) (i : Int64) : Option Cell :=
  (t.extent.slot? i).bind fun s => t.cells[s.toNat]?

theorem load_eq_getD_stored? (t : Tape) (i : Int64) : t.load i = (t.stored? i).getD 0 := by
  rw [load, stored?]
  cases t.extent.slot? i with
  | none => rfl
  | some s => exact (t.atSlot_eq s.toNat).trans (Array.getD_eq_getD_getElem? ..)

/-- A cell is found for the indices that are laid down, and for no others. -/
theorem stored?_eq (h : t.size < 0x8000000000000000) (i : Int64) :
    t.stored? i = if t.lo ≤ i.toInt ∧ i.toInt ≤ t.hi then some (t.get i.toInt) else none := by
  have hs := (fits_extent h).map_slot? i
  have hlo : t.lo = -t.left.size := rfl
  rw [toNat_origin h] at hs
  rw [stored?]
  cases hslot : t.extent.slot? i with
  | none =>
    have hneg : ¬ (0 : Int) ≤ t.left.size + i.toInt := fun h0 => by simp [hslot, h0] at hs
    rw [if_neg (by omega), Option.bind_none]
  | some s =>
    rw [hslot, Option.map_some] at hs
    split at hs
    · have hnat : s.toNat = (t.slot i.toInt).toNat := by
        have hsum := Option.some.inj hs
        rw [slot]
        omega
      rw [Option.bind_some, hnat]
      split <;> rename_i hi
      · exact getElem?_cells_slot t hi.1 hi.2
      · have hsize := t.size_eq
        exact Array.getElem?_eq_none (by rw [size_cells, slot]; omega)
    · cases hs

/-- What is found by way of the words is the cell at the index. -/
theorem load_eq (h : t.size < 0x8000000000000000) (i : Int64) : t.load i = t.get i.toInt := by
  rw [load_eq_getD_stored?, stored?_eq h]
  split
  · rfl
  · exact (get_of_outside t (by omega)).symm

end Tape

end Brainfuck
