import VerdictMachine.Machine.Basic

/-!
# Verdicts

What a finished run comes to, and its canonical bytes.
-/

set_option autoImplicit false

namespace VerdictMachine

inductive Verdict where
  | success (output : Bytes) (registers : RegisterFile) (control : Control)
  | failure (reason : Reason) (failureCount complexityUsed : UInt64) (cyclesUsed : UInt32)

namespace Verdict

def successTag : UInt8 := 0x00

def failureTag : UInt8 := 0x01

/-- A tag, then for a success the length of the output, the output, the register
image and the control registers; for a failure its reason and the meters. -/
def bytes : Verdict → Bytes
  | .success output registers control =>
    [successTag] ++ Bytes.ofNatLE 4 output.length ++ output ++ registers.image.toList ++
      control.bytes
  | .failure reason failureCount complexityUsed cyclesUsed =>
    [failureTag, reason.byte] ++ Bytes.ofNatLE 8 failureCount.toNat ++
      Bytes.ofNatLE 8 complexityUsed.toNat ++ Bytes.ofNatLE 4 cyclesUsed.toNat

end Verdict

namespace Machine

/-- The verdict of a machine that has halted. -/
def verdict? (m : Machine) : Option Verdict :=
  match m.state with
  | .running => none
  | .succeeded => some (.success m.memory.output m.registers m.control)
  | .failed reason =>
    some (.failure reason m.control.failureCount m.control.complexity
      (m.control.cyclesUsed reason.fault?))

end Machine

end VerdictMachine
