import VerdictMachine.Machine.Basic
import VerdictMachine.Word.Arith
import VerdictMachine.Word.Shift

/-!
# Integer instructions

Operands are read as words of the width of their bank. Overflow, lost bits and
the outcome of a comparison go to the carry flag. A division by zero raises a
failure and leaves registers and carry alone.
-/

set_option autoImplicit false

namespace VerdictMachine

def IntOp.apply {w : Nat} : IntOp → Word w → Word w → Bool → Option (Word w × Bool)
  | .add, x, y, signed => some (x.add y signed)
  | .sub, x, y, signed => some (x.sub y signed)
  | .mul, x, y, signed => some (x.mul y signed)
  | .div, x, y, signed => x.div y signed
  | .rem, x, y, signed => x.mod y signed

def IntRelation.holds {w : Nat} : IntRelation → Word w → Word w → Bool
  | .eq, x, y => x == y
  | .lt, x, y => x.order y == .lt
  | .ltSigned, x, y => x.signedOrder y == .lt

def BitOp.apply {w : Nat} : BitOp → Word w → Word w → Word w
  | .and, x, y => x.and y
  | .or, x, y => x.or y
  | .xor, x, y => x.xor y

namespace Machine

def word (m : Machine) (bank : IntBank) (r : Register) : Word bank.bits :=
  Word.ofBytes bank.bits (m.registers.slot bank.toBank r)

def setWord (m : Machine) (bank : IntBank) (r : Register) (x : Word bank.bits) : Machine :=
  m.writeRegister bank.toBank r x.toBytes

/-- Writes a result and its flag. -/
def setFlagged (m : Machine) (bank : IntBank) (r : Register) (x : Word bank.bits × Bool) :
    Machine :=
  (m.setWord bank r x.1).setCarry x.2

def arith (m : Machine) (op : IntOp) (signed : Bool) (bank : IntBank) (dst a b : Register) :
    Machine :=
  match op.apply (m.word bank a) (m.word bank b) signed with
  | some result => m.setFlagged bank dst result
  | none => m.raiseFailure

def shift (m : Machine) (op : ShiftOp) (bank : IntBank) (dst src amount : Register) : Machine :=
  let x := m.word bank src
  let k := (m.registers.a16 amount).toNat
  match op with
  | .shl => m.setFlagged bank dst (x.shiftLeft k)
  | .shr => m.setFlagged bank dst (x.shiftRight k)
  | .rol => m.setWord bank dst (x.rotateLeft k)
  | .ror => m.setWord bank dst (x.rotateRight k)

def convert (m : Machine) (dstBank : IntBank) (dst : Register) (srcBank : IntBank) (src : Register)
    (signed : Bool) : Machine :=
  m.setFlagged dstBank dst ((m.word srcBank src).convert dstBank.bits signed)

end Machine

end VerdictMachine
