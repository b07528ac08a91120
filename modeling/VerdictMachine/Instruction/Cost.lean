import VerdictMachine.Instruction.Basic

/-!
# The price of an instruction

Every instruction falls into one price class, and every class has one price.
-/

set_option autoImplicit false

namespace VerdictMachine

inductive CostClass where
  | nop | halt | flagOp | jump | branch | call | libraryCall | return | move | memory
  | intNarrow | intWide | mulDivNarrow | mulDivWide | compare | bitwise | shift
  | float | floatDiv | hashRegister | hashMemory | schnorr | ecdsa | merkle
  deriving DecidableEq, Repr

namespace CostClass

def all : List CostClass :=
  [.nop, .halt, .flagOp, .jump, .branch, .call, .libraryCall, .return, .move, .memory,
   .intNarrow, .intWide, .mulDivNarrow, .mulDivWide, .compare, .bitwise, .shift,
   .float, .floatDiv, .hashRegister, .hashMemory, .schnorr, .ecdsa, .merkle]

def price : CostClass → UInt64
  | .nop | .halt | .flagOp => 1
  | .jump | .branch | .call | .return | .move => 2
  | .libraryCall => 16
  | .memory => 4
  | .intNarrow => 2
  | .intWide => 8
  | .mulDivNarrow => 4
  | .mulDivWide => 64
  | .compare | .bitwise => 2
  | .shift => 3
  | .float => 4
  | .floatDiv => 8
  | .hashRegister => 200
  | .hashMemory => 1000
  | .schnorr | .ecdsa => 20000
  | .merkle => 6000

end CostClass

namespace Instruction

def costClass : Instruction → CostClass
  | .nop => .nop
  | .stop => .halt
  | .fail | .succ | .autoHalt .. | .invCarry | .clearCarry => .flagOp
  | .jump none _ => .jump
  | .jump (some _) _ => .branch
  | .call .. => .call
  | .callLib .. => .libraryCall
  | .ret => .return
  | .put .. | .mov .. | .swp .. | .clr .. | .conv .. => .move
  | .ldc .. | .ld .. | .st .. | .len .. => .memory
  | .arith .add _ bank .. | .arith .sub _ bank .. | .neg bank .. =>
    if 64 < bank.bits then .intWide else .intNarrow
  | .arith _ _ bank .. => if 64 < bank.bits then .mulDivWide else .mulDivNarrow
  | .compare .. => .compare
  | .bitwise .. | .not .. => .bitwise
  | .shift .. => .shift
  | .float .div .. => .floatDiv
  | .float .. | .floatNeg .. | .floatCompare .. => .float
  | .sha3 .. => .hashRegister
  | .sha3Mem .. => .hashMemory
  | .verifySchnorr .. => .schnorr
  | .verifyEcdsa .. => .ecdsa
  | .verifyMerkle .. => .merkle

/-- What the machine charges before it executes the instruction. -/
def cost (i : Instruction) : UInt64 := i.costClass.price

end Instruction

end VerdictMachine
