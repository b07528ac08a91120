import VerdictMachine.Machine.CallStack
import VerdictMachine.Machine.Control
import VerdictMachine.Machine.Memory
import VerdictMachine.Machine.Registers
import VerdictMachine.Program.Library

/-!
# The machine

All state that a program can touch, with the program that is executing and the
libraries met so far. A machine is made for one entry program and one input.
-/

set_option autoImplicit false

namespace VerdictMachine

inductive RunState where
  | running
  | succeeded
  | failed (reason : Reason)
  deriving DecidableEq, Repr

namespace RunState

def isHalted : RunState → Bool
  | .running => false
  | .succeeded | .failed _ => true

def reason? : RunState → Option Reason
  | .failed reason => some reason
  | .running | .succeeded => none

end RunState

structure Config where
  complexityLimit : Option UInt64 := none
  autoHalt : Bool := false
  staticCapacity : Nat := Segment.static.limit
  stackCapacity : Nat := Segment.callStack.limit
  outputCapacity : Nat := Segment.output.limit
  deriving DecidableEq, Repr

structure Machine where
  program : Program
  libraries : Library
  pc : UInt16
  registers : RegisterFile
  control : Control
  memory : Memory
  stack : CallStack
  state : RunState

namespace Machine

/-- The entry program is the first of the known libraries. -/
def start (program : Program) (input : Bytes) (config : Config) : Machine where
  program := program
  libraries := Library.empty.insert program.id program
  pc := 0
  registers := RegisterFile.zero
  control := Control.initial config.complexityLimit config.autoHalt
  memory := Memory.initial config.staticCapacity config.outputCapacity input
  stack := CallStack.initial config.stackCapacity
  state := .running

def checkCapacity (segment : Segment) (requested : Nat) : Except LoadError Unit :=
  if segment.limit < requested then .error (.capacityTooLarge segment requested) else .ok ()

def load (program : Program) (input : Bytes) (config : Config) : Except LoadError Machine := do
  if Segment.input.limit < input.length then
    throw (.segmentTooLarge .input input.length)
  checkCapacity .static config.staticCapacity
  checkCapacity .callStack config.stackCapacity
  checkCapacity .output config.outputCapacity
  return start program input config

def writeRegister (m : Machine) (bank : Bank) (r : Register) (bs : Bytes) : Machine :=
  { m with registers := m.registers.write bank r bs }

def setCarry (m : Machine) (carry : Bool) : Machine :=
  { m with control := { m.control with carry := carry } }

def raiseFailure (m : Machine) : Machine := { m with control := m.control.raiseFailure }

end Machine

/-- Where execution goes on after an instruction. -/
inductive Flow where
  | next
  | jump (target : UInt16)
  | enter (library : ProgramId) (entry : UInt16)
  | leave (caller : ProgramId) (ret : UInt16)
  | halt
  deriving DecidableEq

/-- What an instruction comes to. A fault keeps the machine as the instruction left it. -/
inductive Effect where
  | done (flow : Flow) (machine : Machine)
  | fault (cause : Fault) (machine : Machine)

end VerdictMachine
