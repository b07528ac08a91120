import VerdictMachine.Machine.Basic

/-!
# Jumps, calls and returns

A transfer spends a cycle. A call first makes sure that its frame fits; a
library call first makes sure that the library is the one asked for and that
the entry is one of its boundaries.
-/

set_option autoImplicit false

namespace VerdictMachine.Machine

def jump (m : Machine) (guard : Option Condition) (target : Option UInt16) : Effect :=
  let taken := match guard with
    | some c => c.holds m.control.carry m.control.failure
    | none => true
  if !taken then .done .next m
  else
    match target with
    | none => .fault .illegalInstruction m
    | some target =>
      match m.control.recordCycle with
      | .error f => .fault f m
      | .ok control => .done (.jump target) { m with control := control }

/-- Spends a cycle and pushes a frame, if there is room for it. -/
def pushFrame (m : Machine) (frame : Frame) (flow : Flow) : Effect :=
  if !m.stack.fits frame then .fault .stackOverflow m
  else
    match m.control.recordCycle with
    | .error f => .fault f m
    | .ok control =>
      match m.stack.push frame with
      | .error f => .fault f { m with control := control }
      | .ok stack => .done flow { m with control := control, stack := stack }

/-- A frame that fits is pushed, so no cycle is spent on one that is not. -/
theorem pushFrame_eq (m : Machine) (frame : Frame) (flow : Flow) :
    m.pushFrame frame flow =
      if !m.stack.fits frame then .fault .stackOverflow m
      else
        match m.control.recordCycle with
        | .error f => .fault f m
        | .ok control =>
          .done flow { m with control := control, stack := m.stack.store frame } := by
  unfold pushFrame CallStack.push
  cases m.stack.fits frame <;> rfl

def call (m : Machine) (target ret : UInt16) : Effect :=
  m.pushFrame (.plain ret) (.jump target)

/-- A known library, or else what the host answers, provided that it is what was asked for. -/
def resolve (m : Machine) (host : Resolver) (library : ProgramId) : Except Fault Program :=
  match m.libraries.find? library with
  | some p => .ok p
  | none =>
    match host library with
    | none => .error .libraryNotFound
    | some p => if p.id = library then .ok p else .error .libraryMismatch

def callLibrary (m : Machine) (host : Resolver) (library : ProgramId) (entry ret : UInt16) :
    Effect :=
  match m.resolve host library with
  | .error f => .fault f m
  | .ok p =>
    if !p.isBoundary entry then .fault .invalidLibraryEntry m
    else
      let caller := m.program.id
      match m.pushFrame (.library caller ret) (.enter library entry) with
      | .fault f m => .fault f m
      | .done flow m =>
        .done flow { m with libraries := m.libraries.insertNew library p, program := p }

/-- Leaves the frame on top. A library frame brings its caller back. -/
def returnTo (m : Machine) : Frame → Effect
  | .plain ret => .done (.jump ret) m
  | .library caller ret =>
    match m.libraries.find? caller with
    | none => .fault .libraryNotFound m
    | some p => .done (.leave caller ret) { m with program := p }

def ret (m : Machine) : Effect :=
  if m.stack.isEmpty then .fault .stackUnderflow m
  else
    match m.control.recordCycle with
    | .error f => .fault f m
    | .ok control =>
      match m.stack.pop with
      | .error f => .fault f { m with control := control }
      | .ok (frame, stack) => returnTo { m with control := control, stack := stack } frame

theorem ret_eq (m : Machine) :
    m.ret =
      if m.stack.isEmpty then .fault .stackUnderflow m
      else
        match m.control.recordCycle with
        | .error f => .fault f m
        | .ok control =>
          match m.stack.peek with
          | none => .fault .stackUnderflow { m with control := control }
          | some frame =>
            returnTo { m with control := control, stack := m.stack.drop frame } frame := by
  unfold ret CallStack.pop
  cases m.stack.peek <;> rfl

/-- The library that the host is asked for before an instruction can run. -/
def lookup? (m : Machine) : Instruction → Option ProgramId
  | .callLib library _ =>
    match m.libraries.find? library with
    | some _ => none
    | none => some library
  | _ => none

end VerdictMachine.Machine
