/-! What a machine needs from the outside world: one byte out, one byte in, a
cue before it waits for input, and a flush. Any of these may be refused.

A `Terminal` is a state with these four operations. A `Dialogue` is one side of
a conversation with a terminal: which operation comes next, given the answers
so far. The same dialogue is played against a terminal of this library, where
everything is a value, and performed on a console by a program. -/

namespace Brainfuck

inductive IoError.Kind where
  | brokenPipe
  | writeZero
  | notFound
  | isADirectory
  | notADirectory
  | invalidData
  | other
  deriving DecidableEq, Repr

structure IoError where
  kind : IoError.Kind
  message : String
  deriving DecidableEq, Repr

class Terminal (σ : Type) where
  writeByte : UInt8 → σ → Except IoError Unit × σ
  /-- One byte, or `none` at the end of the input. -/
  readByte : σ → Except IoError (Option UInt8) × σ
  prompt : σ → Except IoError Unit × σ
  flush : σ → Except IoError Unit × σ

inductive Dialogue (α : Type) where
  | done (result : α)
  | write (byte : UInt8) (next : Except IoError Unit → Dialogue α)
  | read (next : Except IoError (Option UInt8) → Dialogue α)
  | prompt (next : Except IoError Unit → Dialogue α)
  | flush (next : Except IoError Unit → Dialogue α)

/-- Holds a dialogue with a terminal to its end. -/
def Dialogue.play {α σ : Type} [Terminal σ] : Dialogue α → σ → α × σ
  | .done a, io => (a, io)
  | .write b next, io =>
    let (answer, io) := Terminal.writeByte b io
    (next answer).play io
  | .read next, io =>
    let (answer, io) := Terminal.readByte io
    (next answer).play io
  | .prompt next, io =>
    let (answer, io) := Terminal.prompt io
    (next answer).play io
  | .flush next, io =>
    let (answer, io) := Terminal.flush io
    (next answer).play io

end Brainfuck
