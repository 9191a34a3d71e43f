import Brainfuck.Terminal.Reader
import Brainfuck.Terminal.Writer

/-! A terminal made of three byte streams: input, output, and a second sink for
the cue, so that the cue never mixes with a program's own bytes. The streams
keep a transcript of all that passed through them or was refused. -/

namespace Brainfuck

inductive Channel where
  | output
  | cue
  deriving DecidableEq, Repr

inductive Event where
  /-- A sink took these bytes. -/
  | wrote (channel : Channel) (bytes : List UInt8)
  | writeRefused (channel : Channel)
  | flushed (channel : Channel)
  | flushRefused (channel : Channel)
  | read (byte : UInt8)
  | inputEnded
  | readRefused
  deriving DecidableEq, Repr

/-- The bytes that an event put into a sink. -/
def Event.bytesTo (c : Channel) : Event → List UInt8
  | .wrote c' bytes => if c' = c then bytes else []
  | _ => []

/-- The text before each read unless another one is asked for. -/
def defaultPrompt : String := "\n> "

/-- The bytes of a text. -/
def utf8 (s : String) : List UInt8 := s.toUTF8.data.toList

@[simp] theorem utf8_empty : utf8 "" = [] := by
  simp [utf8]

@[simp] theorem utf8_append (s t : String) : utf8 (s ++ t) = utf8 s ++ utf8 t := by
  simp [utf8, String.toUTF8_eq_toByteArray, String.toByteArray_append]

theorem utf8_ne_nil {s : String} (h : s.isEmpty = false) : utf8 s ≠ [] := by
  intro hs
  have hb : s.toByteArray = ByteArray.empty :=
    ByteArray.ext (Array.toList_eq_nil_iff.mp (String.toUTF8_eq_toByteArray ▸ hs))
  have he : s = "" := by simpa using hb
  simp [he] at h

structure Streams where
  input : Reader
  output : Writer
  cue : Writer
  prompt : String
  transcript : Array Event

namespace Streams

/-- Streams without faults over the given input. -/
def ofInput (bytes : List UInt8) (prompt : String) : Streams where
  input := .ofBytes bytes
  output := .unbounded
  cue := .unbounded
  prompt := prompt
  transcript := #[]

def record (s : Streams) (e : Event) : Streams := { s with transcript := s.transcript.push e }

def sink (s : Streams) : Channel → Writer
  | .output => s.output
  | .cue => s.cue

def setSink (s : Streams) (w : Writer) : Channel → Streams
  | .output => { s with output := w }
  | .cue => { s with cue := w }

/-- Writes to one sink. What it takes is one event; a refusal is another. -/
def send (s : Streams) (c : Channel) (bytes : List UInt8) : Except IoError Unit × Streams :=
  let w := s.sink c
  let taken := w.accepted bytes
  let (answer, w) := w.write bytes
  let s := s.setSink w c
  let s := if taken.isEmpty then s else s.record (.wrote c taken)
  match answer with
  | .ok () => (.ok (), s)
  | .error e => (.error e, s.record (.writeRefused c))

def flushSink (s : Streams) (c : Channel) : Except IoError Unit × Streams :=
  let (answer, w) := (s.sink c).flush
  let s := s.setSink w c
  match answer with
  | .ok () => (.ok (), s.record (.flushed c))
  | .error e => (.error e, s.record (.flushRefused c))

def receive (s : Streams) : Except IoError (Option UInt8) × Streams :=
  let (answer, r) := s.input.read
  let s := { s with input := r }
  match answer with
  | .ok (some b) => (.ok (some b), s.record (.read b))
  | .ok none => (.ok none, s.record .inputEnded)
  | .error e => (.error e, s.record .readRefused)

/-- Shows the prompt. Output written so far must land before it, so the output
is flushed first, also when the prompt is empty and nothing else happens. -/
def showPrompt (s : Streams) : Except IoError Unit × Streams :=
  match s.flushSink .output with
  | (.error e, s) => (.error e, s)
  | (.ok (), s) =>
    if s.prompt.isEmpty then (.ok (), s)
    else
      match s.send .cue (utf8 s.prompt) with
      | (.error e, s) => (.error e, s)
      | (.ok (), s) => s.flushSink .cue

instance : Terminal Streams where
  writeByte b s := s.send .output [b]
  readByte := receive
  prompt := showPrompt
  flush s := s.flushSink .output

/-- All bytes that a sink took. -/
def written (s : Streams) (c : Channel) : List UInt8 :=
  s.transcript.toList.flatMap (Event.bytesTo c)

end Streams

end Brainfuck
