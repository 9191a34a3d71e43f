import Brainfuck.CommandLine
import Brainfuck.Report
import Brainfuck.Table

/-! One invocation of the command: from its arguments, environment, files and
standard input to its exit code and what it writes. A run that goes on for ever
has no result, so a result is asked for within a bound on the number of steps.

Here nobody observes the run; `Brainfuck.Observer` has what is written if
somebody does. -/

namespace Brainfuck

def versionText : String := "bf 0.1.0\n"

/-- The help text of the command known as `name`. -/
def helpText (name : String) : String :=
  "Run a Brainfuck program read from FILEs, from --execute, or from stdin\n\n"
    ++ "Usage: " ++ name ++ " [OPTIONS] [FILE]...\n\n"
    ++ "Arguments:\n"
    ++ "  [FILE]...  Program files, concatenated in order. Reads stdin when omitted\n\n"
    ++ "Options:\n"
    ++ "  -d, --debug           Print a step-by-step table of operations instead of executing (fallback BF_DEBUG=1)\n"
    ++ "      --prompt <TEXT>   Text shown on stderr before each `,` read; empty disables it (fallback BF_PROMPT)\n"
    ++ "  -e, --execute <CODE>  Brainfuck code to run; repeat to concatenate parts\n"
    ++ "  -h, --help            Print help\n"
    ++ "  -V, --version         Print version\n"

/-- The name that a command goes by in its help text: the last part of the path
it was called by. -/
def shortName (path : String) : String :=
  let parts := (pathParts path.toList).filter fun part => part != [] && part != ['.']
  match parts.getLast? with
  | some ['.', '.'] => "bf"
  | some part => String.ofList part
  | none => "bf"

structure Invocation where
  /-- What the command was called by. -/
  name : String
  args : List String
  env : String → Option String
  read : String → Except IoError (List UInt8)
  stdin : List UInt8

structure Result where
  code : Nat
  stdout : List UInt8
  stderr : List UInt8
  deriving DecidableEq, Repr

namespace Invocation

/-- What is left for the program to read: standard input, unless the program
itself was read from it. -/
def input (i : Invocation) : Source → List UInt8
  | .stdin => []
  | _ => i.stdin

/-- What the command known as `name` says when it cannot read its program. -/
def loadReport (name : String) (e : IoError) : String :=
  name ++ ": failed to read program: " ++ e.message ++ "\n"

/-- The result of a run that has come to an end, given what it wrote. -/
def conclude (i : Invocation) (m : Machine) (stdout stderr : List UInt8) : Ending → Option Result
  | .paused => none
  | .halted => some ⟨0, stdout, stderr⟩
  | .failed f => some ⟨1, stdout, stderr ++ utf8 (Report.render (some i.name) m.program.text f)⟩

/-- The result of running a program text within `fuel` steps. -/
def execute (i : Invocation) (fuel : Nat) (s : Settings) (text : String) : Option Result :=
  let m := Machine.load text
  if s.debug then
    let (_, ending, m, page) := Table.print fuel m (.ofRoom none)
    i.conclude m page.taken.toList [] ending
  else
    let (ending, m, io) := m.run fuel (Streams.ofInput (i.input s.source) s.prompt)
    i.conclude m (io.written .output) (io.written .cue) ending

/-- What comes of the arguments, if `execute` tells it of a program text. -/
def respond (i : Invocation) (execute : Settings → String → Option Result) : Option Result :=
  match CommandLine.parse i.args with
  | .help => some ⟨0, utf8 (helpText (shortName i.name)), []⟩
  | .version => some ⟨0, utf8 versionText, []⟩
  | .refused e => some ⟨2, [], utf8 (e.message ++ "\n")⟩
  | .run a =>
    let s := Settings.resolve a.source a.overrides i.env
    match s.source.load i.read i.stdin with
    | .error e => some ⟨1, [], utf8 (loadReport i.name e)⟩
    | .ok text => execute s text

/-- The result within `fuel` steps, with nobody to hear what is reported on the way. -/
def result (i : Invocation) (fuel : Nat) : Option Result := i.respond (i.execute fuel)

end Invocation

end Brainfuck
