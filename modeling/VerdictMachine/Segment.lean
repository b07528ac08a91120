/-!
# Memory segments

Six segments, their size limits and what instructions may do with them. Code
and call stack have no selector: no instruction can name them.
-/

set_option autoImplicit false

namespace VerdictMachine

inductive Segment where
  | code | constant | static | callStack | input | output
  deriving DecidableEq, Repr

namespace Segment

def all : List Segment := [.code, .constant, .static, .callStack, .input, .output]

def name : Segment → String
  | .code => "Code" | .constant => "Constant" | .static => "Static"
  | .callStack => "CallStack" | .input => "Input" | .output => "Output"

/-- The largest size in bytes. -/
def limit : Segment → Nat
  | .code => 65535 | .constant => 65536 | .static => 65536
  | .callStack => 196608 | .input => 1048576 | .output => 262144

def readable : Segment → Bool
  | .constant | .static | .input => true
  | .code | .callStack | .output => false

def writable : Segment → Bool
  | .static | .output => true
  | .code | .constant | .callStack | .input => false

def selector? : Segment → Option UInt8
  | .constant => some 0 | .static => some 1 | .input => some 2 | .output => some 3
  | .code | .callStack => none

def ofSelector? (c : UInt8) : Option Segment := all.find? (·.selector? == some c)

/-- The half-open range of `len` bytes at `address`, if a segment of `size` bytes holds it. -/
def range? (size : Nat) (address : UInt32) (len : Nat) : Option (Nat × Nat) :=
  if address.toNat + len ≤ size then some (address.toNat, address.toNat + len) else none

theorem ofSelector?_eq_some_iff {c : UInt8} {s : Segment} :
    ofSelector? c = some s ↔ s.selector? = some c := by
  constructor
  · intro h
    simpa using List.find?_some h
  · intro h
    cases s <;> simp only [selector?, Option.some.injEq, reduceCtorEq] at h <;> subst h <;> rfl

end Segment

end VerdictMachine
