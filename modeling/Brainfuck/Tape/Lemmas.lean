import Brainfuck.Tape.Basic

/-! What each tape operation does to the cells, read by index, and to the
extent. With `get_cover`, `get_set`, `lo_cover`, `hi_cover`, `lo_set` and
`hi_set` in hand no proof needs to look inside the two arrays again. -/

namespace Brainfuck.Tape

/-! ## Cells -/

@[simp] theorem get_blank (i : Int) : blank.get i = 0 := by
  cases i with
  | ofNat n => cases n <;> simp [get, blank]
  | negSucc n => simp [get, blank]

@[simp] theorem get_cover (t : Tape) (i j : Int) : (t.cover i).get j = t.get j := by
  cases i <;> cases j <;> simp only [cover, get, getD_extend]

private theorem getD_setIfInBounds_extend (cells : Array Cell) (n k : Nat) (v : Cell) :
    ((extend cells (n + 1)).setIfInBounds n v).getD k 0 =
      if k = n then v else cells.getD k 0 := by
  have hn := le_size_extend cells (n + 1)
  by_cases hk : k = n
  · subst hk
    rw [if_pos rfl, Array.getD_eq_getD_getElem?, Array.getElem?_setIfInBounds_self_of_lt (by omega)]
    rfl
  · rw [if_neg hk, ← getD_extend cells (n + 1) k, Array.getD_eq_getD_getElem?,
      Array.getD_eq_getD_getElem?, Array.getElem?_setIfInBounds_ne (fun h => hk h.symm)]

theorem get_set (t : Tape) (i j : Int) (v : Cell) :
    (t.set i v).get j = if j = i then v else t.get j := by
  cases i <;> cases j <;>
    simp only [set, get, getD_setIfInBounds_extend, Int.ofNat_inj, Int.negSucc_inj,
      Int.ofNat_eq_natCast, reduceCtorEq, if_false]

@[simp] theorem get_set_self (t : Tape) (i : Int) (v : Cell) : (t.set i v).get i = v := by
  rw [get_set, if_pos rfl]

theorem get_set_of_ne (t : Tape) {i j : Int} (v : Cell) (h : j ≠ i) :
    (t.set i v).get j = t.get j := by
  rw [get_set, if_neg h]

/-! ## Extent -/

theorem lo_nonpos (t : Tape) : t.lo ≤ 0 := by
  unfold lo; omega

theorem hi_nonneg (t : Tape) : 0 ≤ t.hi := by
  have := t.right_pos
  unfold hi; omega

@[simp] theorem lo_blank : blank.lo = 0 := rfl

@[simp] theorem hi_blank : blank.hi = 0 := rfl

theorem size_eq (t : Tape) : (t.size : Int) = t.hi - t.lo + 1 := by
  unfold size hi lo; omega

theorem size_pos (t : Tape) : 0 < t.size := by
  have := t.right_pos
  unfold size; omega

@[simp] theorem isEmpty_eq_false (t : Tape) : t.isEmpty = false := by
  have := t.size_pos
  simp only [isEmpty, beq_eq_false_iff_ne]; omega

theorem lo_cover (t : Tape) (i : Int) : (t.cover i).lo = min t.lo i := by
  cases i with
  | ofNat n => simp only [cover, lo, Int.ofNat_eq_natCast]; omega
  | negSucc n => simp only [cover, lo, size_extend]; omega

theorem hi_cover (t : Tape) (i : Int) : (t.cover i).hi = max t.hi i := by
  have := t.right_pos
  cases i with
  | ofNat n => simp only [cover, hi, size_extend, Int.ofNat_eq_natCast]; omega
  | negSucc n => simp only [cover, hi]; omega

theorem lo_set (t : Tape) (i : Int) (v : Cell) : (t.set i v).lo = min t.lo i := by
  cases i with
  | ofNat n => simp only [set, lo, Int.ofNat_eq_natCast]; omega
  | negSucc n => simp only [set, lo, Array.size_setIfInBounds, size_extend]; omega

theorem hi_set (t : Tape) (i : Int) (v : Cell) : (t.set i v).hi = max t.hi i := by
  have := t.right_pos
  cases i with
  | ofNat n =>
    simp only [set, hi, Array.size_setIfInBounds, size_extend, Int.ofNat_eq_natCast]; omega
  | negSucc n => simp only [set, hi]; omega

/-- Beyond its extent a tape reads as zero. -/
theorem get_of_outside (t : Tape) {i : Int} (h : i < t.lo ∨ t.hi < i) : t.get i = 0 := by
  cases i with
  | ofNat n =>
    have hn : t.right.size ≤ n := by
      have := t.lo_nonpos
      simp only [hi, Int.ofNat_eq_natCast] at h this; omega
    simp [get, Array.getD_eq_getD_getElem?, Array.getElem?_eq_none hn]
  | negSucc n =>
    have hn : t.left.size ≤ n := by
      have := t.hi_nonneg
      simp only [lo] at h; omega
    simp [get, Array.getD_eq_getD_getElem?, Array.getElem?_eq_none hn]

/-- A tape is no more than its cells and its extent. -/
theorem eq_of_get_eq {t u : Tape} (hlo : t.lo = u.lo) (hhi : t.hi = u.hi)
    (hget : ∀ i, t.get i = u.get i) : t = u := by
  obtain ⟨left, right, _⟩ := t
  obtain ⟨left', right', _⟩ := u
  have hleft : left = left' := by
    refine Array.ext (by simp only [lo] at hlo; omega) fun n h h' => ?_
    simpa [get, Array.getD, h, h'] using hget (.negSucc n)
  have hright : right = right' := by
    refine Array.ext (by simp only [hi] at hhi; omega) fun n h h' => ?_
    simpa [get, Array.getD, h, h'] using hget (.ofNat n)
  subst hleft hright
  rfl

/-- The tape is laid down from index 0 to the lowest and to the highest of these. -/
structure Spans (t : Tape) (indices : List Int) : Prop where
  lo : (0 :: indices).min? = some t.lo
  hi : (0 :: indices).max? = some t.hi

theorem spans_blank : blank.Spans [] := ⟨rfl, rfl⟩

theorem Spans.append {t u : Tape} {indices : List Int} {i : Int} (h : t.Spans indices)
    (hlo : u.lo = min t.lo i) (hhi : u.hi = max t.hi i) : u.Spans (indices ++ [i]) := by
  have hlo' := h.lo
  have hhi' := h.hi
  rw [List.min?_cons', Option.some_inj] at hlo'
  rw [List.max?_cons', Option.some_inj] at hhi'
  refine ⟨?_, ?_⟩
  · rw [List.min?_cons', List.foldl_append, hlo', hlo]
    rfl
  · rw [List.max?_cons', List.foldl_append, hhi', hhi]
    rfl

/-! ## The cells in a row -/

@[simp] theorem size_cells (t : Tape) : t.cells.size = t.size := by
  simp [cells, size]

/-- The slot of a laid-down index holds its cell. -/
theorem getElem?_cells_slot (t : Tape) {i : Int} (hlo : t.lo ≤ i) (hhi : i ≤ t.hi) :
    t.cells[(t.slot i).toNat]? = some (t.get i) := by
  cases i with
  | ofNat n =>
    have hs : (t.slot (.ofNat n)).toNat = t.left.size + n := by
      simp only [slot, lo, Int.ofNat_eq_natCast]; omega
    have hn : n < t.right.size := by
      simp only [hi, Int.ofNat_eq_natCast] at hhi; omega
    rw [hs, cells, Array.getElem?_append_right (by simp)]
    simp [get, Array.getD_eq_getD_getElem?, hn]
  | negSucc n =>
    have hn : n < t.left.size := by
      simp only [lo] at hlo; omega
    have hs : (t.slot (.negSucc n)).toNat = t.left.size - 1 - n := by
      simp only [slot, lo]; omega
    rw [hs, cells, Array.getElem?_append_left (by simp; omega), Array.getElem?_reverse (by omega)]
    have hk : t.left.size - 1 - (t.left.size - 1 - n) = n := by omega
    simp [get, Array.getD_eq_getD_getElem?, hn, hk]

theorem extend_eq (cells : Array Cell) (n : Nat) :
    extend cells n = cells ++ Array.replicate (n - cells.size) 0 := by
  unfold extend
  split
  · rw [Nat.sub_eq_zero_of_le ‹_›, Array.replicate_zero, Array.append_empty]
  · rfl

/-- Laying down cells puts zeros in front of the row or behind it, and leaves the row as
it is. -/
theorem cells_cover (t : Tape) (i : Int) :
    (t.cover i).cells = Array.replicate (t.lo - i).toNat 0 ++ t.cells ++
      Array.replicate (i - t.hi).toNat 0 := by
  have hlo := t.lo_nonpos
  have hhi := t.hi_nonneg
  cases i with
  | ofNat n =>
    have hfront : (t.lo - Int.ofNat n).toNat = 0 := by
      rw [Int.ofNat_eq_natCast]
      omega
    have hback : (Int.ofNat n - t.hi).toNat = n + 1 - t.right.size := by
      rw [Int.ofNat_eq_natCast, hi]
      omega
    have hcover : (t.cover (Int.ofNat n)).cells = t.left.reverse ++ extend t.right (n + 1) := rfl
    rw [hfront, hback, Array.replicate_zero, Array.empty_append, hcover, extend_eq, cells,
      Array.append_assoc]
  | negSucc n =>
    have hfront : (t.lo - Int.negSucc n).toNat = n + 1 - t.left.size := by
      rw [lo]
      omega
    have hback : (Int.negSucc n - t.hi).toNat = 0 := by omega
    have hcover : (t.cover (Int.negSucc n)).cells = (extend t.left (n + 1)).reverse ++ t.right :=
      rfl
    rw [hfront, hback, Array.replicate_zero, Array.append_empty, hcover, extend_eq, cells,
      Array.reverse_append, Array.reverse_replicate, Array.append_assoc]

private theorem reverse_setIfInBounds {cells : Array Cell} {n : Nat} (h : n < cells.size)
    (v : Cell) :
    (cells.setIfInBounds n v).reverse = cells.reverse.setIfInBounds (cells.size - 1 - n) v := by
  refine Array.ext_getElem? fun k => ?_
  by_cases hk : k < cells.size
  · have hn : n = cells.size - 1 - k ↔ cells.size - 1 - n = k := by omega
    rw [Array.getElem?_reverse (by simpa using hk), Array.getElem?_setIfInBounds,
      Array.getElem?_setIfInBounds, Array.getElem?_reverse hk]
    have hlt : cells.size - 1 - n < cells.size := by omega
    simp only [Array.size_setIfInBounds, Array.size_reverse, hn, if_pos h, if_pos hlt]
  · rw [Array.getElem?_eq_none (by simpa using hk), Array.getElem?_eq_none (by simpa using hk)]

/-- A write lays down the cells on the way and changes the slot of its index, and no other. -/
theorem cells_set (t : Tape) (i : Int) (v : Cell) :
    (t.set i v).cells =
      (t.cover i).cells.setIfInBounds ((t.cover i).slot i).toNat v := by
  cases i with
  | ofNat n =>
    have hslot : ((t.cover (.ofNat n)).slot (.ofNat n)).toNat = t.left.reverse.size + n := by
      simp only [slot, cover, lo, Array.size_reverse, Int.ofNat_eq_natCast]
      omega
    have hset : (t.set (.ofNat n) v).cells =
        t.left.reverse ++ (extend t.right (n + 1)).setIfInBounds n v := rfl
    have hcover : (t.cover (.ofNat n)).cells = t.left.reverse ++ extend t.right (n + 1) := rfl
    rw [hslot, hset, hcover, Array.setIfInBounds_append_right (by omega), Nat.add_sub_cancel_left]
  | negSucc n =>
    have hn := le_size_extend t.left (n + 1)
    have hslot : ((t.cover (.negSucc n)).slot (.negSucc n)).toNat =
        (extend t.left (n + 1)).size - 1 - n := by
      simp only [slot, cover, lo]
      omega
    have hset : (t.set (.negSucc n) v).cells =
        ((extend t.left (n + 1)).setIfInBounds n v).reverse ++ t.right := rfl
    have hcover : (t.cover (.negSucc n)).cells = (extend t.left (n + 1)).reverse ++ t.right := rfl
    rw [hslot, hset, hcover, Array.setIfInBounds_append_left (by rw [Array.size_reverse]; omega),
      reverse_setIfInBounds (by omega)]

end Brainfuck.Tape
