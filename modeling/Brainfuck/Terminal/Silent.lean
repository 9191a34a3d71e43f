import Brainfuck.Terminal.Basic

/-! The terminal that drops what is written to it and has nothing to read. -/

namespace Brainfuck

structure Silent where
  deriving DecidableEq, Repr

instance : Terminal Silent where
  writeByte _ io := (.ok (), io)
  readByte io := (.ok none, io)
  prompt io := (.ok (), io)
  flush io := (.ok (), io)

end Brainfuck
