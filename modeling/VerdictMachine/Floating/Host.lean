import VerdictMachine.Floating.Arith

/-!
# The floating-point unit of a host

Single and double precision, and the conversions of half precision, are the
host's. It takes and gives bit patterns. Hosts agree on numbers and differ in
the patterns that they write for what is no number.
-/

set_option autoImplicit false

namespace VerdictMachine

structure FloatUnit where
  single : FloatOp → UInt32 → UInt32 → UInt32
  double : FloatOp → UInt64 → UInt64 → UInt64
  widen : UInt16 → UInt32
  narrow : UInt32 → UInt16

namespace FloatUnit

/-- The unit that computes with rationals and rounds each result once. -/
def exact : FloatUnit where
  single op a b := .ofNat (Format.binary32.arith op a.toNat b.toNat)
  double op a b := .ofNat (Format.binary64.arith op a.toNat b.toNat)
  widen a := .ofNat (Format.binary16.convert .binary32 a.toNat)
  narrow a := .ofNat (Format.binary32.convert .binary16 a.toNat)

end FloatUnit

end VerdictMachine
