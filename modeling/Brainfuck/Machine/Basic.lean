import Brainfuck.Command
import Brainfuck.Effect
import Brainfuck.Failure
import Brainfuck.Memory
import Brainfuck.Program

/-! The machine and its step. A step dispatches the character behind the
instruction pointer; jumps set the pointer to the bracket they jump to, so that
the step after continues behind that bracket.

A `[` on a zero cell looks for its `]` in the program text, while a `]` on a
nonzero cell goes back to the innermost loop entered and not yet left. -/

namespace Brainfuck

inductive Status where
  | running
  | terminated
  | failed
  deriving DecidableEq, Repr

structure Machine where
  program : Program
  /-- The last position dispatched or jumped to, `none` before the first. -/
  ip : Option Nat
  memory : Memory
  /-- Positions of the loops entered and not yet left, innermost first. -/
  loops : List Nat
  status : Status

/-- An instruction that was executed, with the pointer and the current cell it
found and what it did. -/
structure Executed where
  ip : Nat
  command : Command
  pointer : Int
  cell : Cell
  effect : Effect
  deriving DecidableEq, Repr

/-- Where the pointer stands after the instruction. -/
def Executed.pointerAfter (e : Executed) : Int :=
  match e.effect with
  | .moved target => target
  | _ => e.pointer

inductive Outcome where
  | executed (e : Executed)
  /-- Nothing was executed: the program is at its end, or was before. -/
  | halted
  | failed (f : Failure)
  deriving DecidableEq, Repr

namespace Machine

def load (source : String) : Machine where
  program := .ofSource source
  ip := none
  memory := .blank
  loops := []
  status := .running

instance : Inhabited Machine := ⟨load ""⟩

/-- The position that the next step dispatches. -/
def next (m : Machine) : Nat :=
  match m.ip with
  | none => 0
  | some ip => ip + 1

def current (m : Machine) : Cell := m.memory.current

/-- How many loops were entered and not yet left. -/
def depth (m : Machine) : Nat := m.loops.length

/-- Stops the machine at `ip`, with everything else as it was. -/
def fail (m : Machine) (ip : Nat) (f : Failure) : Outcome × Machine :=
  (.failed f, { m with ip := some ip, status := .failed })

/-- Carries out the command `c` standing at `ip`. -/
def dispatch (m : Machine) (ip : Nat) (c : Command) : Dialogue (Outcome × Machine) :=
  let pointer := m.memory.pointer
  let cell := m.memory.current
  let did (effect : Effect) : Outcome := .executed ⟨ip, c, pointer, cell, effect⟩
  match c with
  | .right =>
    let target := pointer + 1
    .done (did (.moved target), { m with ip := some ip, memory := m.memory.moveTo target })
  | .left =>
    let target := pointer - 1
    .done (did (.moved target), { m with ip := some ip, memory := m.memory.moveTo target })
  | .increment =>
    let after := cell.increment
    .done (did (.incremented pointer cell after),
      { m with ip := some ip, memory := m.memory.store after })
  | .decrement =>
    let after := cell.decrement
    .done (did (.decremented pointer cell after),
      { m with ip := some ip, memory := m.memory.store after })
  | .output =>
    .write cell fun
      | .error e => .done (m.fail ip (.io e ip))
      | .ok () => .done (did (.wrote cell), { m with ip := some ip })
  | .input =>
    .prompt fun
      | .error e => .done (m.fail ip (.io e ip))
      | .ok () => .read fun
        | .error e => .done (m.fail ip (.io e ip))
        | .ok byte =>
          .done (did (.read byte),
            { m with ip := some ip, memory := m.memory.store (byte.getD 0) })
  | .loopStart =>
    if cell = 0 then
      match m.program.closing? ip with
      | none => .done (m.fail ip (.unbalanced .opening ip))
      | some target => .done (did (.skippedLoop target), { m with ip := some target })
    else .done (did .enteredLoop, { m with ip := some ip, loops := ip :: m.loops })
  | .loopEnd =>
    if cell = 0 then
      match m.loops with
      | [] => .done (did .strayLoopEnd, { m with ip := some ip })
      | _ :: loops => .done (did .exitedLoop, { m with ip := some ip, loops })
    else
      match m.loops with
      | [] => .done (m.fail ip (.unbalanced .closing ip))
      | target :: _ => .done (did (.repeatedLoop target), { m with ip := some target })

/-- Ends the program with a line feed. The machine has terminated even if the
terminal refuses it. -/
def finish (m : Machine) (ip : Nat) : Dialogue (Outcome × Machine) :=
  let m := { m with ip := some ip, status := .terminated }
  .write 10 fun
    | .error e => .done (.failed (.io e ip), m)
    | .ok () => .flush fun
      | .error e => .done (.failed (.io e ip), m)
      | .ok () => .done (.halted, m)

/-- What the machine does next. -/
def turn (m : Machine) : Dialogue (Outcome × Machine) :=
  match m.status with
  | .running =>
    let ip := m.next
    match m.program[ip]? with
    | none => m.finish ip
    | some ch =>
      match Command.ofChar? ch with
      | none => .done (m.fail ip (.invalidCommand ch ip))
      | some c => m.dispatch ip c
  | _ => .done (.halted, m)

def step {σ : Type} [Terminal σ] (m : Machine) (io : σ) : Outcome × Machine × σ :=
  let ((outcome, m), io) := m.turn.play io
  (outcome, m, io)

end Machine

end Brainfuck
