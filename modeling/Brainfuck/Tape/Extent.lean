import Brainfuck.Tape.Basic

/-! Where a tape lies in memory, in machine words. The laid-down cells stand in
a row of `len` slots with index 0 in slot `origin`; lengths and slots are
unsigned 64-bit words and an index is a signed one. Growth to the left adds
slots in front and moves the origin up, growth to the right adds slots behind.

Each intermediate word has a name of its own, because the sums and differences
below are exact only while the row is shorter than 2 ^ 63 slots. -/

namespace Brainfuck

structure Extent where
  origin : UInt64
  len : UInt64
  deriving DecidableEq, Repr

namespace Extent

/-- The origin lies in the row, and the row is short enough for a signed word
to count its slots. -/
def Fits (e : Extent) : Prop :=
  e.origin < e.len ∧ e.len.toNat < 0x8000000000000000

instance (e : Extent) : Decidable e.Fits := inferInstanceAs (Decidable (_ ∧ _))

/-! ## The indices in the row -/

def lowest (e : Extent) : Int64 := -e.origin.toInt64

/-- The slots behind the one of index 0. -/
def behind (e : Extent) : UInt64 := e.len - e.origin - 1

def highest (e : Extent) : Int64 := e.behind.toInt64

/-! ## Slots of indices -/

/-- How far two indices are apart. -/
def distance (a b : Int64) : UInt64 :=
  if a < b then b.toUInt64 - a.toUInt64 else a.toUInt64 - b.toUInt64

/-- The word sum of a slot and a signed offset. -/
def offset (slot : UInt64) (i : Int64) : UInt64 := slot + i.toUInt64

/-- The slot of `i`, unless the sum leaves the range of a word. -/
def slot? (e : Extent) (i : Int64) : Option UInt64 :=
  let s := offset e.origin i
  if decide (i < 0) = decide (s < e.origin) then some s else none

/-! ## Growth -/

/-- How many slots must be added in front before `i` has one. -/
def missing (e : Extent) (i : Int64) : UInt64 :=
  if i < e.lowest then distance e.lowest i else 0

/-- The row with enough slots in front for `i`. -/
def grownLeft (e : Extent) (i : Int64) : Extent :=
  ⟨e.origin + e.missing i, e.len + e.missing i⟩

/-- The slot of `i` once the row covers it. -/
def slot (e : Extent) (i : Int64) : UInt64 := offset (e.grownLeft i).origin i

/-- The row after every index between 0 and `i` has got a slot. -/
def cover (e : Extent) (i : Int64) : Extent :=
  let e' := e.grownLeft i
  if e.slot i < e'.len then e' else { e' with len := e.slot i + 1 }

end Extent

namespace Tape

def extent (t : Tape) : Extent := ⟨t.left.size.toUInt64, t.size.toUInt64⟩

/-- The cell in a slot of the row; slots behind the last read as zero. -/
def atSlot (t : Tape) (s : Nat) : Cell :=
  if s < t.left.size then t.left.getD (t.left.size - 1 - s) 0
  else t.right.getD (s - t.left.size) 0

/-- The cell at an index, found by its slot. -/
def load (t : Tape) (i : Int64) : Cell :=
  match t.extent.slot? i with
  | some s => t.atSlot s.toNat
  | none => 0

theorem atSlot_eq (t : Tape) (s : Nat) : t.atSlot s = t.cells.getD s 0 := by
  simp only [atSlot, cells, Array.getD_eq_getD_getElem?, Array.getElem?_append,
    Array.size_reverse]
  split
  · rw [Array.getElem?_reverse (by omega)]
  · rfl

end Tape

end Brainfuck
