import Brainfuck.Failure

/-! The report of a failure: what happened and where, and a caret under the
character in question with up to 32 characters of the program on each side. -/

namespace Brainfuck

/-- Control characters: the two ranges of codes kept for them. -/
def isControl (ch : Char) : Bool :=
  ch.toNat < 0x20 || (0x7f ≤ ch.toNat && ch.toNat < 0xa0)

namespace Report

/-- How a control character is spelled in a report. -/
def escaped : Char → String
  | '\t' => "\\t"
  | '\n' => "\\n"
  | '\r' => "\\r"
  | ch => "\\u\x7b" ++ String.ofList (Nat.toDigits 16 ch.toNat) ++ "\x7d"

def describe (ch : Char) : String :=
  "'" ++ (if isControl ch then escaped ch else String.singleton ch) ++ "'"

def cause : Failure → String
  | .invalidCommand ch _ => "Invalid command " ++ describe ch
  | .unbalanced .opening _ => "Unbalanced bracket: '[' has no matching ']'"
  | .unbalanced .closing _ => "Unbalanced bracket: ']' has no open loop to repeat"
  | .io e _ => "I/O error: " ++ e.message

/-- Characters shown on each side of the one in question. -/
def reach : Nat := 32

/-- A character as it is shown above the caret. -/
def shown (ch : Char) : Char := if isControl ch then '?' else ch

/-- The characters around position `pos`, and where among them that position
is. -/
def window? (code : List Char) (pos : Nat) : Option (List Char × Nat) :=
  if pos < code.length then
    let start := pos - reach
    some (((code.drop start).take (pos - start + reach + 1)).map shown, pos - start)
  else none

/-- The two lines that show a position. -/
def context (code : List Char) (pos : Nat) : String :=
  match window? code pos with
  | none => ""
  | some (slice, caret) =>
    "  " ++ String.ofList slice ++ "\n  " ++ String.ofList (List.replicate caret ' ') ++ "^\n"

/-- The whole report, opening with the name of the program that reports. -/
def render (program : Option String) (code : String) (f : Failure) : String :=
  (match program with
    | none => ""
    | some p => p ++ ": ")
    ++ cause f ++ " at instruction " ++ toString f.ip ++ "\n" ++ context code.toList f.ip

end Report

end Brainfuck
