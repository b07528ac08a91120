import VerdictMachine.Instruction.Cost
import VerdictMachine.Machine.Execute

/-!
# One step of the machine

A step decodes, charges and executes one instruction. It reports what happened
as a list of events. A fault halts the machine at the instruction; so does a
failure while the machine is set to halt on failures.
-/

set_option autoImplicit false

namespace VerdictMachine

inductive Event where
  | started (program : ProgramId) (pc : UInt16) (op : Opcode)
  | transferred (source target : UInt16) (cycles : UInt16)
  | libraryCalled (library : ProgramId) (entry : UInt16)
  | libraryReturned (caller : ProgramId) (ret : UInt16)
  | failureRaised (pc : UInt16) (count : UInt64)
  | halted (pc : UInt16) (reason : Option Reason)
  deriving DecidableEq

inductive Outcome where
  | retired (pc next : UInt16)
  | halted (state : RunState)
  deriving DecidableEq, Repr

/-- A step seen from outside: the machine after it, how it ended, what happened,
and which library the host was asked for. -/
structure Report where
  machine : Machine
  outcome : Outcome
  events : List Event
  lookup : Option ProgramId

namespace Flow

/-- Where execution goes on, given the offset of the next instruction. -/
def target? (next : UInt16) : Flow → Option UInt16
  | .next => some next
  | .jump target => some target
  | .enter _ entry => some entry
  | .leave _ ret => some ret
  | .halt => none

def events (pc cycles : UInt16) : Flow → List Event
  | .next | .halt => []
  | .jump target => [.transferred pc target cycles]
  | .enter library entry => [.libraryCalled library entry, .transferred pc entry cycles]
  | .leave caller ret => [.libraryReturned caller ret, .transferred pc ret cycles]

end Flow

namespace Machine

def haltWith (m : Machine) (state : RunState) (events : List Event) (lookup : Option ProgramId) :
    Report :=
  ⟨{ m with state := state }, .halted state, events ++ [.halted m.pc state.reason?], lookup⟩

/-- How a program that stops by itself ends. -/
def stopState (m : Machine) : RunState :=
  if m.control.failure then .failed .rejected else .succeeded

/-- Completes a step after an instruction without a fault. `failures` is the
failure count from before it. -/
def settle (m : Machine) (next : UInt16) (flow : Flow) (failures : UInt64) (events : List Event)
    (lookup : Option ProgramId) : Report :=
  let m := { m with control := { m.control with stackPointer := UInt32.ofNat m.stack.top } }
  let raised := m.control.failureCount != failures
  let events := if raised then events ++ [.failureRaised m.pc m.control.failureCount] else events
  if raised && m.control.autoHalt then m.haltWith (.failed .rejected) events lookup
  else
    match flow.target? next with
    | none => m.haltWith m.stopState events lookup
    | some target =>
      let pc := m.pc
      let cycles := m.control.cycles
      ⟨{ m with pc := target }, .retired pc target, events ++ flow.events pc cycles, lookup⟩

/-- The fault that code which does not decode comes to. -/
def decodeFault : DecodeError → Fault
  | .endOfCode _ => .endOfCode
  | _ => .illegalInstruction

def step (host : Resolver) (m : Machine) : Report :=
  if m.state.isHalted then
    let state := m.state
    ⟨m, .halted state, [], none⟩
  else
    match Instruction.decode m.program.code m.pc with
    | .error e => m.haltWith (.failed (.runtime (decodeFault e))) [] none
    | .ok d =>
      let started := Event.started m.program.id m.pc d.instruction.opcode
      match m.control.charge d.instruction.cost with
      | .error f => m.haltWith (.failed (.runtime f)) [started] none
      | .ok control =>
        let failures := control.failureCount
        let lookup := m.lookup? d.instruction
        match execute host d { m with control := control } with
        | .fault f m => m.haltWith (.failed (.runtime f)) [started] lookup
        | .done flow m => m.settle d.next flow failures [started] lookup

end Machine

end VerdictMachine
