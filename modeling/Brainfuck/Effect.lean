import Brainfuck.Cell
import Brainfuck.Line

/-! What one instruction did to the machine, and the line of text that says
so. -/

namespace Brainfuck

inductive Effect where
  | moved (target : Int)
  | incremented (cell : Int) (before after : Cell)
  | decremented (cell : Int) (before after : Cell)
  | wrote (byte : UInt8)
  /-- A byte came in, or the input had ended and the cell was cleared. -/
  | read (byte : Option UInt8)
  | enteredLoop
  | skippedLoop (target : Nat)
  | repeatedLoop (target : Nat)
  | exitedLoop
  /-- A `]` on a zero cell with no loop open does nothing. -/
  | strayLoopEnd
  deriving DecidableEq, Repr

namespace Effect

private def change (verb : String) (cell : Int) (before after : Cell) : String :=
  verb ++ " cell[" ++ toString cell ++ "] from " ++ toString before.toNat
    ++ " to " ++ toString after.toNat

def text : Effect → String
  | moved target => "Moved pointer head to index " ++ toString target
  | incremented cell before after => change "Increment" cell before after
  | decremented cell before after => change "Decrement" cell before after
  | wrote byte => "Output byte " ++ toString byte.toNat
  | read (some byte) => "Read byte " ++ toString byte.toNat
  | read none => "Read hit EOF (set cell to 0)"
  | enteredLoop => "Enter loop (cell != 0)"
  | skippedLoop target => "Cell is 0; jump forward to matching ']' at IP " ++ toString target
  | repeatedLoop target => "Cell != 0; jump back to '[' at IP " ++ toString target
  | exitedLoop => "Exit loop (cell is 0)"
  | strayLoopEnd => "Cell is 0; ignore ']' with no open loop"

private theorem oneLine_change {verb : String} (hv : OneLine verb) (cell : Int)
    (before after : Cell) : OneLine (change verb cell before after) :=
  ((((hv.append (by decide)).append (.ofInt cell)).append (by decide)).append (.ofNat _)).append
    (by decide) |>.append (.ofNat _)

theorem oneLine_text (e : Effect) : OneLine e.text := by
  cases e with
  | moved target => exact .append (by decide) (.ofInt target)
  | incremented | decremented => exact oneLine_change (by decide) _ _ _
  | read byte =>
    cases byte with
    | none => decide
    | some b => exact .append (by decide) (.ofNat _)
  | wrote | skippedLoop | repeatedLoop => exact .append (by decide) (.ofNat _)
  | enteredLoop | exitedLoop | strayLoopEnd => decide

end Effect

end Brainfuck
