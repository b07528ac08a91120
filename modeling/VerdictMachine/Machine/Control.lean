import VerdictMachine.Bytes
import VerdictMachine.Fault

/-!
# Control registers

The flags of the machine and its meters: failures raised, control transfers
taken, complexity spent. Counters saturate. A run may take 65535 transfers and
spend up to its limit.
-/

set_option autoImplicit false

namespace VerdictMachine

structure Control where
  failure : Bool
  carry : Bool
  autoHalt : Bool
  failureCount : UInt64
  cycles : UInt16
  complexity : UInt64
  limit : Option UInt64
  stackPointer : UInt32
  deriving DecidableEq

namespace Control

/-- The first transfer count that a run cannot reach. -/
def cycleCeiling : Nat := 65536

/-- The length of `bytes`. -/
def byteCount : Nat := 32

def saturatingAdd (a b : UInt64) : UInt64 := UInt64.ofNat (min (a.toNat + b.toNat) (UInt64.size - 1))

def initial (limit : Option UInt64) (autoHalt : Bool) : Control :=
  ⟨false, false, autoHalt, 0, 0, 0, limit, 0⟩

def raiseFailure (c : Control) : Control :=
  { c with failure := true, failureCount := saturatingAdd c.failureCount 1 }

def clearFailure (c : Control) : Control := { c with failure := false }

/-- Pays for an instruction. A price that the limit does not cover is not paid at all. -/
def charge (c : Control) (cost : UInt64) : Except Fault Control :=
  let total := saturatingAdd c.complexity cost
  match c.limit with
  | some limit =>
    if limit < total then .error .complexityLimitExceeded else .ok { c with complexity := total }
  | none => .ok { c with complexity := total }

def recordCycle (c : Control) : Except Fault Control :=
  if c.cycles = 65535 then .error .cycleLimitExceeded else .ok { c with cycles := c.cycles + 1 }

/-- The transfers a finished run counts, with the refused one if that ended it. -/
def cyclesUsed (c : Control) (fault : Option Fault) : UInt32 :=
  if fault = some .cycleLimitExceeded then UInt32.ofNat cycleCeiling else c.cycles.toUInt32

def flagBits (c : Control) : UInt8 :=
  c.failure.toUInt8 ||| (c.carry.toUInt8 <<< 1) ||| (c.autoHalt.toUInt8 <<< 2)

def bytes (c : Control) : Bytes :=
  [c.flagBits] ++ Bytes.ofNatLE 8 c.failureCount.toNat ++ Bytes.ofNatLE 2 c.cycles.toNat ++
    Bytes.ofNatLE 8 c.complexity.toNat ++ [c.limit.isSome.toUInt8] ++
    Bytes.ofNatLE 8 (c.limit.getD 0).toNat ++ Bytes.ofNatLE 4 c.stackPointer.toNat

end Control

end VerdictMachine
