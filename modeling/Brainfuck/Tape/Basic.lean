import Brainfuck.Cell

/-! A tape of cells without ends. Cells are laid down from index 0 outwards the
first time they are needed; a cell that was never laid down reads as zero, so a
tape is a total map from the integers to cells whose laid-down part is finite.

The two directions are kept apart: `right` holds indices 0, 1, 2, … and `left`
holds -1, -2, -3, …, so growth on one side never touches the other. -/

namespace Brainfuck

structure Tape where
  left : Array Cell
  right : Array Cell
  right_pos : 0 < right.size

namespace Tape

/-! ## Growing one side -/

/-- The cells of `cells`, followed by zeros up to the size `n`. -/
def extend (cells : Array Cell) (n : Nat) : Array Cell :=
  if n ≤ cells.size then cells else cells ++ Array.replicate (n - cells.size) 0

theorem size_extend (cells : Array Cell) (n : Nat) :
    (extend cells n).size = max cells.size n := by
  unfold extend
  split
  · omega
  · simp; omega

theorem le_size_extend (cells : Array Cell) (n : Nat) : n ≤ (extend cells n).size := by
  rw [size_extend]; omega

theorem getD_extend (cells : Array Cell) (n i : Nat) :
    (extend cells n).getD i 0 = cells.getD i 0 := by
  unfold extend
  split
  · rfl
  · simp only [Array.getD_eq_getD_getElem?, Array.getElem?_append]
    split
    · rfl
    · rename_i h
      have hnone : cells[i]? = none := Array.getElem?_eq_none (by omega)
      simp only [hnone, Array.getElem?_replicate]
      split <;> rfl

/-! ## Cells by index -/

/-- A tape with nothing but the zeroed cell at index 0. -/
def blank : Tape := ⟨#[], #[0], by simp⟩

instance : Inhabited Tape := ⟨blank⟩

def get (t : Tape) : Int → Cell
  | .ofNat n => t.right.getD n 0
  | .negSucc n => t.left.getD n 0

/-- Lays down every cell between index 0 and `i`. -/
def cover (t : Tape) : Int → Tape
  | .ofNat n =>
    { t with
      right := extend t.right (n + 1)
      right_pos := by have := le_size_extend t.right (n + 1); omega }
  | .negSucc n => { t with left := extend t.left (n + 1) }

/-- Puts `v` at index `i`, laying down the cells on the way. -/
def set (t : Tape) (i : Int) (v : Cell) : Tape :=
  match i with
  | .ofNat n =>
    { t with
      right := (extend t.right (n + 1)).setIfInBounds n v
      right_pos := by
        have := le_size_extend t.right (n + 1)
        simp only [Array.size_setIfInBounds]; omega }
  | .negSucc n => { t with left := (extend t.left (n + 1)).setIfInBounds n v }

def modify (t : Tape) (f : Cell → Cell) (i : Int) : Tape :=
  t.set i (f (t.get i))

/-! ## Extent -/

/-- The lowest index laid down. -/
def lo (t : Tape) : Int := -t.left.size

/-- The highest index laid down. -/
def hi (t : Tape) : Int := t.right.size - 1

/-- How many cells are laid down. -/
def size (t : Tape) : Nat := t.left.size + t.right.size

/-- A tape holds the cell at index 0 from the start, so it is never empty. -/
def isEmpty (t : Tape) : Bool := t.size == 0

/-- The laid-down cells from `lo` to `hi`. -/
def cells (t : Tape) : Array Cell := t.left.reverse ++ t.right

/-- Where the cell at `i` stands in `cells`. -/
def slot (t : Tape) (i : Int) : Int := i - t.lo

end Tape

end Brainfuck
