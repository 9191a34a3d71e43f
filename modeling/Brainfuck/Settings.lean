import Brainfuck.Source
import Brainfuck.Terminal.Streams

/-! Settings of a run. A setting given as a flag wins over one from the
environment, and that over the default. -/

namespace Brainfuck

/-- Settings given as flags. -/
structure Overrides where
  prompt : Option String
  debug : Bool
  deriving DecidableEq, Repr

structure Settings where
  source : Source
  /-- Shown before each read; nothing is shown if it is empty. -/
  prompt : String
  /-- Print the step table instead of talking to a terminal. -/
  debug : Bool
  deriving DecidableEq, Repr

def Settings.resolve (source : Source) (flags : Overrides) (env : String → Option String) :
    Settings where
  source := source
  prompt := (flags.prompt.or (env "BF_PROMPT")).getD defaultPrompt
  debug := flags.debug || env "BF_DEBUG" == some "1"

end Brainfuck
