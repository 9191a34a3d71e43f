import Brainfuck.Terminal.Basic

/-! A byte sink that may fill up. A write is taken whole while there is room;
one that does not fit is taken up to the room that is left and then refused. -/

namespace Brainfuck

structure Writer where
  /-- How many bytes the sink still takes; `none` if it never fills up. -/
  room : Option Nat
  /-- How many flushes still succeed; `none` if none ever fails. -/
  flushes : Option Nat
  /-- What a write is refused with. -/
  refusal : IoError
  /-- What a flush is refused with. -/
  flushRefusal : IoError
  deriving DecidableEq, Repr

namespace Writer

/-- A sink that takes everything. -/
def unbounded : Writer where
  room := none
  flushes := none
  refusal := ⟨.writeZero, "failed to write whole buffer"⟩
  flushRefusal := ⟨.other, "flush fault"⟩

/-- The part of `bytes` that is taken. -/
def accepted (w : Writer) (bytes : List UInt8) : List UInt8 :=
  match w.room with
  | none => bytes
  | some room => bytes.take room

/-- Whether `bytes` is taken whole. -/
def fits (w : Writer) (bytes : List UInt8) : Bool :=
  match w.room with
  | none => true
  | some room => bytes.length ≤ room

def write (w : Writer) (bytes : List UInt8) : Except IoError Unit × Writer :=
  (if w.fits bytes then .ok () else .error w.refusal,
    { w with room := w.room.map (· - bytes.length) })

def flush (w : Writer) : Except IoError Unit × Writer :=
  (if w.flushes = some 0 then .error w.flushRefusal else .ok (),
    { w with flushes := w.flushes.map (· - 1) })

theorem accepted_of_fits {w : Writer} {bytes : List UInt8} (h : w.fits bytes = true) :
    w.accepted bytes = bytes := by
  unfold fits at h
  unfold accepted
  split at h
  · simp_all
  · rename_i room _
    exact List.take_of_length_le (of_decide_eq_true h)

theorem accepted_prefix (w : Writer) (bytes : List UInt8) : w.accepted bytes <+: bytes := by
  unfold accepted
  split
  · exact List.prefix_rfl
  · exact List.take_prefix _ _

end Writer

end Brainfuck
