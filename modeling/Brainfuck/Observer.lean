import Brainfuck.Invocation
import Brainfuck.Log

/-! An observer of an invocation. What is reported goes to stderr as it comes up,
between the prompts. Which reports are heard is a setting of the environment,
`RUST_LOG`; what the setting means and what a line looks like is up to the
observer, who may put the time into each line. -/

namespace Brainfuck

structure Observer where
  /-- The places that a setting asks to hear, if it can be read as a setting. -/
  filter? : String → Option (Log.Site → Bool)
  /-- The line for an entry when `shown` have been shown before. -/
  line (shown : Nat) (e : Log.Entry) : String

/-- What is heard and how much of it has been shown. -/
structure Journal where
  hears : Log.Site → Bool
  line (shown : Nat) (e : Log.Entry) : String
  shown : Nat

namespace Observer

/-- The places that are heard. Warnings are, unless a setting asks for something else. -/
def hears (o : Observer) (env : String → Option String) : Log.Site → Bool :=
  ((env "RUST_LOG").bind o.filter?).getD fun site => Verbosity.warn.covers site.level

def journal (o : Observer) (env : String → Option String) : Journal := ⟨o.hears env, o.line, 0⟩

/-- An observer whose setting is a level or `off`, and whose lines have no colours and
begin with the time. The times are those of a clock: `clock n` is the one in the line
behind `n` others. -/
def timed (clock : Nat → String) : Observer where
  filter?
    | "off" => some fun _ => false
    | "error" => some fun site => Verbosity.error.covers site.level
    | "warn" => some fun site => Verbosity.warn.covers site.level
    | "info" => some fun site => Verbosity.info.covers site.level
    | "debug" => some fun site => Verbosity.debug.covers site.level
    | "trace" => some fun site => Verbosity.trace.covers site.level
    | _ => none
  line shown e :=
    clock shown ++ " " ++ e.site.level.text ++ " " ++ e.site.home ++ ": " ++ e.text

end Observer

namespace Journal

/-- Shows an entry on stderr, if its place is heard. Whether stderr takes it is not asked. -/
def enter (e : Log.Entry) (j : Journal) (io : Streams) : Journal × Streams :=
  if j.hears e.site then
    ({ j with shown := j.shown + 1 }, (io.send .cue (utf8 (j.line j.shown e ++ "\n"))).2)
  else (j, io)

def enterAll : List Log.Entry → Journal → Streams → Journal × Streams
  | [], j, io => (j, io)
  | e :: es, j, io => enterAll es (j.enter e io).1 (j.enter e io).2

/-- Takes at most `n` steps and enters what each has to report. -/
def run : Nat → Journal → Machine → Streams → Ending × Machine × Streams
  | 0, _, m, io => (.paused, m, io)
  | n + 1, j, m, io =>
    match m.step io with
    | (.executed e, m', io) =>
      let (j, io) := j.enterAll (Log.ofExecuted e) io
      j.run n m' io
    | (.halted, m', io) => (.halted, m', (j.enterAll (Log.ofEnd m m') io).2)
    | (.failed f, m', io) => (.failed f, m', (j.enterAll (Log.ofEnd m m') io).2)

end Journal

namespace Invocation

/-- `execute`, with a journal on streams that hold what has been entered so far. -/
def executeWith (i : Invocation) (fuel : Nat) (s : Settings) (text : String) (j : Journal)
    (io : Streams) : Option Result :=
  let m := Machine.load text
  if s.debug then
    let (done, ending, m', page) := Table.print fuel m (.ofRoom none)
    let (_, io) := j.enterAll (Log.entries m done m') io
    i.conclude m' page.taken.toList (io.written .cue) ending
  else
    let (j, io) := j.enter (.started m.program.size) io
    let (ending, m', io) := j.run fuel m io
    i.conclude m' (io.written .output) (io.written .cue) ending

/-- The result within `fuel` steps, with what the observer hears of it. -/
def observed (o : Observer) (i : Invocation) (fuel : Nat) : Option Result :=
  i.respond fun s text =>
    let io := Streams.ofInput (i.input s.source) s.prompt
    let (j, io) := (o.journal i.env).enter (.loaded s.source s.debug) io
    i.executeWith fuel s text j io

end Invocation

end Brainfuck
