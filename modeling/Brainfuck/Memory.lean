import Brainfuck.Tape.Lemmas

/-! The tape and the pointer to its current cell. Moving the pointer lays down
the cell it comes to, so the current cell always lies within the tape's
extent. -/

namespace Brainfuck

structure Memory where
  tape : Tape
  pointer : Int

namespace Memory

def blank : Memory := ⟨.blank, 0⟩

instance : Inhabited Memory := ⟨blank⟩

def current (m : Memory) : Cell := m.tape.get m.pointer

def moveTo (m : Memory) (i : Int) : Memory := ⟨m.tape.cover i, i⟩

/-- Puts `v` into the current cell. -/
def store (m : Memory) (v : Cell) : Memory := { m with tape := m.tape.set m.pointer v }

@[simp] theorem pointer_moveTo (m : Memory) (i : Int) : (m.moveTo i).pointer = i := rfl

@[simp] theorem pointer_store (m : Memory) (v : Cell) : (m.store v).pointer = m.pointer := rfl

@[simp] theorem current_store (m : Memory) (v : Cell) : (m.store v).current = v := by
  simp [current, store]

@[simp] theorem get_moveTo (m : Memory) (i j : Int) :
    (m.moveTo i).tape.get j = m.tape.get j := by
  simp [moveTo]

theorem get_store (m : Memory) (v : Cell) (j : Int) :
    (m.store v).tape.get j = if j = m.pointer then v else m.tape.get j := by
  simp [store, Tape.get_set]

end Memory

end Brainfuck
