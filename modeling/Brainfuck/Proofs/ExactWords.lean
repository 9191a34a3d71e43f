import Brainfuck.Proofs.Addressing

/-! No word of a tape wraps round. Lengths and slots are unsigned words and indices signed
ones, and they meet in casts, differences and sums each of which could leave the range of a
word. None does, at any index, as long as the row has fewer than 2 ^ 63 slots; and a row
that grows keeps below that bound if and only if it has to cover no more indices. -/

namespace Brainfuck

namespace Extent

variable {e : Extent}

/-! ## The words of a row -/

/-- The words that tell the bounds of the row are the numbers they are meant to be. -/
structure ExactBounds (e : Extent) : Prop where
  cast : e.origin.toInt64.toInt = e.origin.toNat
  lowest : e.lowest.toInt = -e.origin.toNat
  rest : ((e.len - e.origin).toNat : Int) = e.len.toNat - e.origin.toNat
  behind : (e.behind.toNat : Int) = e.len.toNat - e.origin.toNat - 1
  highest : e.highest.toInt = e.len.toNat - e.origin.toNat - 1

/-- So are the words on the way to the slot of `i`, in the order in which they come up. -/
structure ExactGrowth (e : Extent) (i : Int64) : Prop where
  distance : (distance e.lowest i).toNat = (e.lowest.toInt - i.toInt).natAbs
  missing : ((e.missing i).toNat : Int) = max 0 (e.lowest.toInt - i.toInt)
  origin : (e.grownLeft i).origin.toNat = e.origin.toNat + (e.missing i).toNat
  len : (e.grownLeft i).len.toNat = e.len.toNat + (e.missing i).toNat
  slot : ((e.slot i).toNat : Int) = (e.grownLeft i).origin.toNat + i.toInt
  next : (e.slot i + 1).toNat = (e.slot i).toNat + 1
  cover : (e.cover i).len.toNat = max (e.grownLeft i).len.toNat ((e.slot i).toNat + 1)

theorem Fits.exactBounds (h : e.Fits) : e.ExactBounds := by
  have hlt := h.origin_lt
  have hlen := h.2
  have hbehind := h.toNat_behind
  have hrest : ((e.len - e.origin).toNat : Int) = e.len.toNat - e.origin.toNat := by
    rw [UInt64.toNat_sub]
    omega
  exact ⟨toInt_toInt64 (by omega), h.toInt_lowest, hrest, by omega, h.toInt_highest⟩

theorem Fits.exactGrowth (h : e.Fits) (i : Int64) : e.ExactGrowth i := by
  have hlt := h.origin_lt
  have hlen := h.2
  have hlowest := h.toInt_lowest
  have hmissing := e.toNat_missing i
  have hi := i.le_toInt
  have hi' := i.toInt_lt
  -- an index below the row is no more than 2 ^ 63 slots away, and the row is shorter than that
  have horigin : (e.grownLeft i).origin.toNat = e.origin.toNat + (e.missing i).toNat := by
    rw [grownLeft, UInt64.toNat_add]
    omega
  have hgrown : (e.grownLeft i).len.toNat = e.len.toNat + (e.missing i).toNat := by
    rw [grownLeft, UInt64.toNat_add]
    omega
  have hslot : ((e.slot i).toNat : Int) = (e.grownLeft i).origin.toNat + i.toInt := by
    rw [slot, toNat_offset] <;> omega
  have hnext : (e.slot i + 1).toNat = (e.slot i).toNat + 1 := by
    rw [UInt64.toNat_add, UInt64.toNat_one]
    omega
  refine ⟨toNat_distance _ _, by omega, horigin, hgrown, hslot, hnext, ?_⟩
  rw [cover]
  split <;> rename_i hs <;> rw [UInt64.lt_iff_toNat_lt] at hs
  · omega
  · dsimp only
    omega

/-! ## The grown row -/

theorem origin_cover (e : Extent) (i : Int64) : (e.cover i).origin = (e.grownLeft i).origin := by
  unfold cover
  dsimp only
  split <;> rfl

theorem Fits.toNat_len_cover (h : e.Fits) (i : Int64) :
    ((e.cover i).len.toNat : Int) =
      max e.highest.toInt i.toInt - min e.lowest.toInt i.toInt + 1 := by
  have hlt := h.origin_lt
  have hb := h.exactBounds
  have hg := h.exactGrowth i
  have hlowest := hb.lowest
  have hhighest := hb.highest
  have hmissing := hg.missing
  have horigin := hg.origin
  have hlen := hg.len
  have hslot := hg.slot
  rw [hg.cover]
  omega

theorem Fits.slot_lt_cover (h : e.Fits) (i : Int64) : e.slot i < (e.cover i).len := by
  rw [UInt64.lt_iff_toNat_lt, (h.exactGrowth i).cover]
  omega

theorem Fits.fits_cover_iff (h : e.Fits) (i : Int64) :
    (e.cover i).Fits ↔
      max e.highest.toInt i.toInt - min e.lowest.toInt i.toInt + 1 < 0x8000000000000000 := by
  have hlt := h.origin_lt
  have hlen := h.toNat_len_cover i
  have hg := h.exactGrowth i
  have horigin := hg.origin
  have hgrown := hg.len
  have hcover := hg.cover
  rw [Fits, UInt64.lt_iff_toNat_lt, origin_cover]
  omega

end Extent

/-! ## The words of a tape -/

namespace Tape

variable {t : Tape}

theorem size_cover (t : Tape) (i : Int) :
    ((t.cover i).size : Int) = max t.hi i - min t.lo i + 1 := by
  rw [size_eq, hi_cover, lo_cover]

/-- A tape that covers one more index lies where its words say. -/
theorem extent_cover (h : t.size < 0x8000000000000000) {i : Int64}
    (hc : (t.cover i.toInt).size < 0x8000000000000000) :
    (t.cover i.toInt).extent = t.extent.cover i := by
  have hg := (fits_extent h).exactGrowth i
  have hlo := toInt_lowest h
  have hhi := toInt_highest h
  have hlen : (t.cover i.toInt).extent.len = (t.extent.cover i).len := by
    rw [← UInt64.toNat_inj, toNat_len hc, ← Int.ofNat_inj, size_cover,
      (fits_extent h).toNat_len_cover, hlo, hhi]
  have horigin : (t.cover i.toInt).extent.origin = (t.extent.cover i).origin := by
    have hcover := t.lo_cover i.toInt
    have hmissing := hg.missing
    have hgrown := hg.origin
    have hold := toNat_origin h
    rw [← UInt64.toNat_inj, toNat_origin hc, Extent.origin_cover]
    rw [lo, lo] at hcover
    rw [hlo, lo] at hmissing
    omega
  calc (t.cover i.toInt).extent
      = ⟨(t.cover i.toInt).extent.origin, (t.cover i.toInt).extent.len⟩ := rfl
    _ = t.extent.cover i := by rw [horigin, hlen]

/-- **No word of a tape wraps round.** Take a tape of fewer than 2 ^ 63 cells and any index.
All words about its bounds are exact. The slot of the index is the sum of the origin and the
index, and it is none exactly if that sum is negative. So a cell is found there if and only
if the index lies between the bounds, it is the one of that index, and otherwise the index
reads as zero. All words on the way to covering the index are exact as well. The slot lies
in the row that covers it, and that row is again short enough if and only if the indices to
be covered are; it then is the row of the tape that covers the index. -/
theorem words_exact (h : t.size < 0x8000000000000000) (i : Int64) :
    let e := t.extent
    e.Fits ∧ e.ExactBounds ∧ e.lowest.toInt = t.lo ∧ e.highest.toInt = t.hi ∧
    (e.slot? i).map (fun s => (s.toNat : Int)) =
      (if 0 ≤ e.origin.toNat + i.toInt then some (e.origin.toNat + i.toInt) else none) ∧
    t.stored? i = (if e.lowest ≤ i ∧ i ≤ e.highest then some (t.get i.toInt) else none) ∧
    t.load i = (t.stored? i).getD 0 ∧
    e.ExactGrowth i ∧ e.slot i < (e.cover i).len ∧
    ((e.cover i).Fits ↔ max t.hi i.toInt - min t.lo i.toInt + 1 < 0x8000000000000000) ∧
    ((e.cover i).Fits → (t.cover i.toInt).extent = e.cover i ∧
      (t.cover i.toInt).cells[(e.slot i).toNat]? = some (t.get i.toInt)) := by
  intro e
  have hfits := fits_extent h
  have hlo := toInt_lowest h
  have hhi := toInt_highest h
  have hcover := hfits.fits_cover_iff i
  rw [hlo, hhi] at hcover
  refine ⟨hfits, hfits.exactBounds, hlo, hhi, hfits.map_slot? i, ?_, t.load_eq_getD_stored? i,
    hfits.exactGrowth i, hfits.slot_lt_cover i, hcover, fun hf => ?_⟩
  · rw [stored?_eq h, ← hlo, ← hhi]
    simp only [e, Int64.le_iff_toInt_le]
  · have hc : (t.cover i.toInt).size < 0x8000000000000000 := by
      have hsize := t.size_cover i.toInt
      have hneeded := hcover.mp hf
      omega
    refine ⟨extent_cover h hc, ?_⟩
    have hslot := toNat_slot h i
    have hcell := (t.cover i.toInt).getElem?_cells_slot (i := i.toInt)
      (by rw [lo_cover]; omega) (by rw [hi_cover]; omega)
    rw [get_cover, Tape.slot, ← hslot] at hcell
    exact hcell

/-- The lowest and the highest index there are, on a tape that has grown to both sides, and
the two indices at its left edge. To cover the highest would take too many slots. -/
theorem words_exact_at_extremes :
    let t := (blank.set (-3) 5).cover 2
    let e := t.extent
    t.size < 0x8000000000000000 ∧
    t.load Int64.minValue = 0 ∧ (e.missing Int64.minValue).toNat = 0x7ffffffffffffffd ∧
    t.load Int64.maxValue = 0 ∧ (e.slot Int64.maxValue).toNat = 0x8000000000000002 ∧
    ¬ (e.cover Int64.maxValue).Fits ∧
    t.stored? (-3) = some 5 ∧ t.stored? (-4) = none ∧
    (e.cover (-4)).Fits ∧ (t.cover (-4)).extent = e.cover (-4) ∧
    (t.cover (-4)).cells[(e.slot (-4)).toNat]? = some 0 := by
  intro t e
  have hsize : t.size < 0x8000000000000000 := by decide +kernel
  obtain ⟨-, -, -, -, -, hmin, hloadMin, hgrowthMin, -⟩ := words_exact hsize Int64.minValue
  obtain ⟨-, -, -, -, -, hmax, hloadMax, hgrowthMax, -, hfitsMax, -⟩ :=
    words_exact hsize Int64.maxValue
  obtain ⟨-, -, -, -, -, hedge, -⟩ := words_exact hsize (-3)
  obtain ⟨-, -, -, -, -, hbeyond, -, -, -, hfits, hcover⟩ := words_exact hsize (-4)
  have hmissing : ((e.missing Int64.minValue).toNat : Int) = 0x7ffffffffffffffd :=
    hgrowthMin.missing.trans (by decide +kernel)
  have hslot : ((e.slot Int64.maxValue).toNat : Int) = 0x8000000000000002 :=
    hgrowthMax.slot.trans (by decide +kernel)
  have hfour := hfits.mpr (by decide +kernel)
  refine ⟨hsize, ?_, by omega, ?_, by omega, ?_, ?_, ?_, hfour, hcover hfour⟩
  · rw [hloadMin, hmin]
    decide +kernel
  · rw [hloadMax, hmax]
    decide +kernel
  · rw [hfitsMax]
    decide +kernel
  · rw [hedge]
    decide +kernel
  · rw [hbeyond]
    decide +kernel

end Tape

end Brainfuck
