import Brainfuck.Invocation

/-! The command on a console. All that is decided here is where bytes come from
and go to, and what the command was called by. There is no observer. -/

namespace Brainfuck.Console

/-- The cause of an operating system's refusal. Some calls give the number of
the cause with its sign turned. -/
def refusal : IO.Error → IoError
  | .noFileOrDirectory _ _ _ => .notFound
  | .inappropriateType _ code details =>
    if number code = 20 then .notADirectory
    else if number code = 21 then .isADirectory
    else ⟨.other, details⟩
  | .resourceVanished _ _ => ⟨.brokenPipe, "Broken pipe (os error 32)"⟩
  | e => ⟨.other, toString e⟩
where
  number (code : UInt32) : UInt32 := if code < 0x80000000 then code else -code

def attempt {α : Type} (action : IO α) : IO (Except IoError α) := do
  try
    let a ← action
    return .ok a
  catch e => return .error (refusal e)

def write (s : IO.FS.Stream) (bytes : List UInt8) : IO Unit := do
  s.write ⟨bytes.toArray⟩
  s.flush

/-- Where a dialogue is held. -/
structure Streams where
  input : IO.FS.Stream
  output : IO.FS.Stream
  cue : IO.FS.Stream
  prompt : String

def perform {α : Type} (c : Streams) : Dialogue α → IO α
  | .done a => return a
  | .write b next => do
    let answer ← attempt (c.output.write ⟨#[b]⟩)
    perform c (next answer)
  | .read next => do
    let answer ← attempt do
      let bytes ← c.input.read 1
      return bytes.data[0]?
    perform c (next answer)
  | .prompt next => do
    let answer ← attempt do
      c.output.flush
      unless c.prompt.isEmpty do write c.cue (utf8 c.prompt)
    perform c (next answer)
  | .flush next => do
    let answer ← attempt c.output.flush
    perform c (next answer)

partial def run (c : Streams) (m : Machine) : IO (Ending × Machine) := do
  match ← perform c m.turn with
  | (.executed _, m) => run c m
  | (.halted, m) => return (.halted, m)
  | (.failed f, m) => return (.failed f, m)

/-- Prints the step table row by row. -/
partial def tabulate (out : IO.FS.Stream) (n : Nat) (m : Machine) : IO (Ending × Machine) := do
  match m.step Silent.mk with
  | (.halted, m, _) => return (.halted, m)
  | (.failed f, m, _) => return (.failed f, m)
  | (.executed e, m, _) =>
    match ← attempt (out.putStr (Table.row n e)) with
    | .error err => return (.failed (.io err e.ip), m)
    | .ok () => tabulate out (n + 1) m

def table (out : IO.FS.Stream) (m : Machine) : IO (Ending × Machine) := do
  match ← attempt (out.putStr (Table.titles ++ Table.rule)) with
  | .error err => return (.failed (.io err 0), m)
  | .ok () => tabulate out 0 m

partial def readAll (s : IO.FS.Stream) (past : Array UInt8) : IO (Array UInt8) := do
  let bytes ← s.read 65536
  if bytes.isEmpty then return past else readAll s (past ++ bytes.data)

/-- Whatever the source needs, read ahead. -/
def load (stdin : IO.FS.Stream) (source : Source) : IO (Except IoError String) := do
  match source with
  | .inline _ => return source.load (fun _ => .error .notFound) []
  | .files names =>
    let contents ← names.mapM fun (name : String) => do
      let bytes ← attempt (IO.FS.readBinFile name)
      return (name, bytes.map fun bytes => bytes.data.toList)
    return source.load (fun name => (contents.lookup name).getD (.error .notFound)) []
  | .stdin =>
    match ← attempt (readAll stdin #[]) with
    | .error e => return .error e
    | .ok bytes => return source.load (fun _ => .error .notFound) bytes.toList

/-- What the command was called by: the first of the words it was started with. -/
def calledBy : IO String := do
  match ← attempt (IO.FS.readBinFile "/proc/self/cmdline") with
  | .error _ => return "bf"
  | .ok words =>
    if words.isEmpty then return "bf"
    return (decodeText (words.data.toList.takeWhile (· != 0))).toOption.getD "bf"

def execute (name : String) (a : Arguments) : IO UInt32 := do
  let promptVar ← IO.getEnv "BF_PROMPT"
  let debugVar ← IO.getEnv "BF_DEBUG"
  let s := Settings.resolve a.source a.overrides fun key =>
    ([("BF_PROMPT", promptVar), ("BF_DEBUG", debugVar)].lookup key).join
  let stdin ← IO.getStdin
  let stdout ← IO.getStdout
  let stderr ← IO.getStderr
  match ← load stdin s.source with
  | .error e =>
    stderr.putStr (Invocation.loadReport name e)
    return 1
  | .ok text =>
    let m := Machine.load text
    let (ending, m) ← if s.debug then table stdout m else run ⟨stdin, stdout, stderr, s.prompt⟩ m
    let _ ← attempt stdout.flush
    match ending with
    | .failed f =>
      stderr.putStr (Report.render (some name) m.program.text f)
      return 1
    | _ => return 0

end Brainfuck.Console

def main (args : List String) : IO UInt32 := do
  let name ← Brainfuck.Console.calledBy
  match Brainfuck.CommandLine.parse args with
  | .help =>
    IO.print (Brainfuck.helpText (Brainfuck.shortName name))
    return 0
  | .version =>
    IO.print Brainfuck.versionText
    return 0
  | .refused e =>
    IO.eprintln e.message
    return 2
  | .run a => Brainfuck.Console.execute name a
