/-!
# Faults and failure reasons

A fault stops a run at once. A run can also end in failure because the program
itself rejected.
-/

set_option autoImplicit false

namespace VerdictMachine

inductive FaultFamily where
  | decode | control | memory | resource
  deriving DecidableEq, Repr

inductive Fault where
  | illegalInstruction
  | endOfCode
  | segmentOutOfBounds
  | stackOverflow
  | stackUnderflow
  | libraryNotFound
  | libraryMismatch
  | invalidLibraryEntry
  | cycleLimitExceeded
  | complexityLimitExceeded
  deriving DecidableEq, Repr

namespace Fault

def all : List Fault :=
  [.illegalInstruction, .endOfCode, .segmentOutOfBounds, .stackOverflow, .stackUnderflow,
   .libraryNotFound, .libraryMismatch, .invalidLibraryEntry, .cycleLimitExceeded,
   .complexityLimitExceeded]

def code : Fault → UInt8
  | .illegalInstruction => 0x01
  | .endOfCode => 0x02
  | .segmentOutOfBounds => 0x03
  | .stackOverflow => 0x04
  | .stackUnderflow => 0x05
  | .libraryNotFound => 0x06
  | .libraryMismatch => 0x07
  | .invalidLibraryEntry => 0x08
  | .cycleLimitExceeded => 0x09
  | .complexityLimitExceeded => 0x0A

def ofCode? (c : UInt8) : Option Fault := all.find? (·.code == c)

def family : Fault → FaultFamily
  | .illegalInstruction => .decode
  | .segmentOutOfBounds => .memory
  | .endOfCode | .stackOverflow | .stackUnderflow | .libraryNotFound | .libraryMismatch
  | .invalidLibraryEntry => .control
  | .cycleLimitExceeded | .complexityLimitExceeded => .resource

def message : Fault → String
  | .illegalInstruction => "illegal instruction encoding"
  | .endOfCode => "execution reached the end of the code segment"
  | .segmentOutOfBounds => "data access outside segment bounds"
  | .stackOverflow => "call stack overflow"
  | .stackUnderflow => "call stack underflow"
  | .libraryNotFound => "library not found"
  | .libraryMismatch => "resolved library does not match requested id"
  | .invalidLibraryEntry => "invalid library entry point"
  | .cycleLimitExceeded => "cycle limit exceeded"
  | .complexityLimitExceeded => "complexity limit exceeded"

theorem ofCode?_code (f : Fault) : ofCode? f.code = some f := by
  cases f <;> rfl

end Fault

inductive Reason where
  | rejected
  | runtime (fault : Fault)
  deriving DecidableEq, Repr

namespace Reason

/-- Zero for a rejection, the code of the fault otherwise. -/
def byte : Reason → UInt8
  | .rejected => 0
  | .runtime fault => fault.code

def fault? : Reason → Option Fault
  | .rejected => none
  | .runtime fault => some fault

def ofByte (b : UInt8) : Reason :=
  match Fault.ofCode? b with
  | some fault => .runtime fault
  | none => .rejected

theorem ofByte_byte (r : Reason) : ofByte r.byte = r := by
  cases r with
  | rejected => rfl
  | runtime fault => cases fault <;> rfl

end Reason

end VerdictMachine
