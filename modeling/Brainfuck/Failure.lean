import Brainfuck.Terminal.Basic

/-! Why a machine stops before the end of its program. Every failure names the
position it points at. -/

namespace Brainfuck

inductive Bracket where
  | opening
  | closing
  deriving DecidableEq, Repr

/-- The bracket in quotes. -/
def Bracket.quoted : Bracket → String
  | opening => "'['"
  | closing => "']'"

inductive Failure where
  /-- The machine reached a character that is not a command. -/
  | invalidCommand (ch : Char) (ip : Nat)
  /-- A loop to be skipped has no end, or one to be repeated no beginning. -/
  | unbalanced (side : Bracket) (ip : Nat)
  /-- The terminal refused what the instruction at `ip` asked for. -/
  | io (error : IoError) (ip : Nat)
  deriving DecidableEq, Repr

namespace Failure

def ip : Failure → Nat
  | invalidCommand _ ip => ip
  | unbalanced _ ip => ip
  | io _ ip => ip

/-- The text of what the terminal refused with, if that is the cause. -/
def source? : Failure → Option String
  | io e _ => some e.message
  | _ => none

def message : Failure → String
  | invalidCommand ch ip => "Invalid command '" ++ String.singleton ch ++ "' at " ++ toString ip
  | unbalanced side ip => "Unmatched " ++ side.quoted ++ " bracket at column " ++ toString ip
  | io e ip => "I/O error at instruction " ++ toString ip ++ ": " ++ e.message

end Failure

end Brainfuck
