import Brainfuck.FileSystem

/-! Where the text of a program comes from, and how it is read: code as it
stands, files one after the other, or all of standard input. Bytes must be valid
UTF-8, each file on its own, and the first file that cannot be read decides. -/

namespace Brainfuck

def IoError.invalidText : IoError := ⟨.invalidData, "stream did not contain valid UTF-8"⟩

/-- The text that bytes encode. -/
def decodeText (bytes : List UInt8) : Except IoError String :=
  match String.fromUTF8? ⟨bytes.toArray⟩ with
  | some s => .ok s
  | none => .error .invalidText

inductive Source where
  | inline (parts : List String)
  | files (names : List String)
  | stdin
  deriving DecidableEq, Repr

namespace Source

/-- The texts of some files, one after the other. -/
def readAll (read : String → Except IoError (List UInt8)) : List String → Except IoError String
  | [] => .ok ""
  | name :: names => do
    let bytes ← read name
    let text ← decodeText bytes
    let rest ← readAll read names
    return text ++ rest

/-- The whole text of a source, given the files and standard input. -/
def load (read : String → Except IoError (List UInt8)) (input : List UInt8) :
    Source → Except IoError String
  | inline parts => .ok (String.join parts)
  | files names => readAll read names
  | stdin => decodeText input

end Source

end Brainfuck
