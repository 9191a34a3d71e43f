/-! One tape cell: a byte whose arithmetic goes round at 256. -/

namespace Brainfuck

abbrev Cell := UInt8

namespace Cell

def increment (c : Cell) : Cell := c + 1

def decrement (c : Cell) : Cell := c - 1

theorem toNat_increment (c : Cell) : c.increment.toNat = (c.toNat + 1) % 256 := by
  simp [increment, UInt8.toNat_add]

theorem decrement_increment (c : Cell) : c.increment.decrement = c := by
  simp [increment, decrement]

theorem increment_decrement (c : Cell) : c.decrement.increment = c := by
  simp [increment, decrement]

theorem toNat_decrement (c : Cell) : c.decrement.toNat = (c.toNat + 255) % 256 := by
  simp [decrement, UInt8.toNat_sub, Nat.add_comm]

end Cell

end Brainfuck
