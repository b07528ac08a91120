import VerdictMachine.Floating.Host

/-!
# Register banks

Eleven banks of thirty-two registers each. The integer, float and wide banks
are the parts of that set which particular instructions take.
-/

set_option autoImplicit false

namespace VerdictMachine

abbrev Register := Fin 32

inductive Bank where
  | a8 | a16 | a32 | a64
  | f16 | f32 | f64
  | r128 | r256 | r512 | r1024
  deriving DecidableEq, Repr

namespace Bank

/-- All banks, in the order in which the register image holds them. -/
def all : List Bank := [.a8, .a16, .a32, .a64, .f16, .f32, .f64, .r128, .r256, .r512, .r1024]

def code : Bank → UInt8
  | .a8 => 0x00 | .a16 => 0x01 | .a32 => 0x02 | .a64 => 0x03
  | .f16 => 0x10 | .f32 => 0x11 | .f64 => 0x12
  | .r128 => 0x20 | .r256 => 0x21 | .r512 => 0x22 | .r1024 => 0x23

def ofCode? (c : UInt8) : Option Bank := all.find? (·.code == c)

/-- The size of one register in bytes. -/
def bytes : Bank → Nat
  | .a8 => 1 | .a16 => 2 | .a32 => 4 | .a64 => 8
  | .f16 => 2 | .f32 => 4 | .f64 => 8
  | .r128 => 16 | .r256 => 32 | .r512 => 64 | .r1024 => 128

def bits (b : Bank) : Nat := 8 * b.bytes

/-- Where the bank starts in the register image: behind all banks before it. -/
def offset (b : Bank) : Nat :=
  (all.takeWhile (· != b)).foldl (fun start c => start + 32 * c.bytes) 0

def isFloat : Bank → Bool
  | .f16 | .f32 | .f64 => true
  | _ => false

def name : Bank → String
  | .a8 => "a8" | .a16 => "a16" | .a32 => "a32" | .a64 => "a64"
  | .f16 => "f16" | .f32 => "f32" | .f64 => "f64"
  | .r128 => "r128" | .r256 => "r256" | .r512 => "r512" | .r1024 => "r1024"

/-- The first byte of a register in the image. -/
def slotStart (b : Bank) (r : Register) : Nat := b.offset + b.bytes * r.val

theorem ofCode?_code (b : Bank) : ofCode? b.code = some b := by
  cases b <;> rfl

theorem code_ofCode? {c : UInt8} {b : Bank} (h : ofCode? c = some b) : b.code = c := by
  simpa using List.find?_some h

/-- All slots of a bank lie between its offset and that of the next one. -/
theorem slot_bounds (b : Bank) (r : Register) :
    b.offset ≤ b.slotStart r ∧ b.slotStart r + b.bytes ≤ b.offset + 32 * b.bytes := by
  have hm : b.bytes * (r.val + 1) ≤ b.bytes * 32 := Nat.mul_le_mul_left _ r.isLt
  rw [Nat.mul_succ] at hm
  unfold slotStart
  omega

theorem slot_end_le (b : Bank) (r : Register) : b.slotStart r + b.bytes ≤ 8608 := by
  have hb : b.offset + 32 * b.bytes ≤ 8608 := by cases b <;> decide
  exact Nat.le_trans (b.slot_bounds r).2 hb

end Bank

inductive IntBank where
  | a8 | a16 | a32 | a64 | r128 | r256 | r512 | r1024
  deriving DecidableEq, Repr

namespace IntBank

def toBank : IntBank → Bank
  | .a8 => .a8 | .a16 => .a16 | .a32 => .a32 | .a64 => .a64
  | .r128 => .r128 | .r256 => .r256 | .r512 => .r512 | .r1024 => .r1024

def ofBank? : Bank → Option IntBank
  | .a8 => some .a8 | .a16 => some .a16 | .a32 => some .a32 | .a64 => some .a64
  | .r128 => some .r128 | .r256 => some .r256 | .r512 => some .r512 | .r1024 => some .r1024
  | .f16 | .f32 | .f64 => none

def bits (b : IntBank) : Nat := b.toBank.bits

theorem ofBank?_eq_some_iff {b : Bank} {i : IntBank} : ofBank? b = some i ↔ i.toBank = b := by
  cases b <;> cases i <;> decide

end IntBank

inductive FloatBank where
  | f16 | f32 | f64
  deriving DecidableEq, Repr

namespace FloatBank

def toBank : FloatBank → Bank
  | .f16 => .f16 | .f32 => .f32 | .f64 => .f64

def ofBank? : Bank → Option FloatBank
  | .f16 => some .f16 | .f32 => some .f32 | .f64 => some .f64
  | _ => none

def format : FloatBank → Format
  | .f16 => .binary16 | .f32 => .binary32 | .f64 => .binary64

theorem ofBank?_eq_some_iff {b : Bank} {i : FloatBank} : ofBank? b = some i ↔ i.toBank = b := by
  cases b <;> cases i <;> decide

/-- The low bits of a register value that a bank takes as a pattern. -/
def pattern (b : FloatBank) (raw : UInt64) : Nat := raw.toNat % (1 <<< b.format.width)

/-- The one pattern in which a result that is no number is written. -/
def canonicalNan : FloatBank → UInt64
  | .f16 => 0x7E00
  | .f32 => 0x7FC00000
  | .f64 => 0x7FF8000000000000

def canonical (b : FloatBank) (raw : UInt64) : UInt64 :=
  if b.format.isNan raw.toNat then b.canonicalNan else raw

/-- One operation on a host. The narrowest bank computes in the next wider format. -/
def arithOn (host : FloatUnit) (b : FloatBank) (op : FloatOp) (x y : UInt64) : UInt64 :=
  b.canonical <| match b with
    | .f16 =>
      (host.narrow (host.single op (host.widen x.toUInt16) (host.widen y.toUInt16))).toUInt64
    | .f32 => (host.single op x.toUInt32 y.toUInt32).toUInt64
    | .f64 => host.double op x y

def arith (b : FloatBank) (op : FloatOp) (x y : UInt64) : UInt64 := b.arithOn .exact op x y

/-- Flips the sign bit of the bank and keeps all other bits. -/
def negate (b : FloatBank) (x : UInt64) : UInt64 :=
  x ^^^ .ofNat (1 <<< (b.format.width - 1))

def compare (b : FloatBank) (relation : FloatRelation) (x y : UInt64) : Bool :=
  relation.holds (b.format.decode (b.pattern x)) (b.format.decode (b.pattern y))

end FloatBank

inductive WideBank where
  | r128 | r256 | r512 | r1024
  deriving DecidableEq, Repr

namespace WideBank

def toBank : WideBank → Bank
  | .r128 => .r128 | .r256 => .r256 | .r512 => .r512 | .r1024 => .r1024

def ofBank? : Bank → Option WideBank
  | .r128 => some .r128 | .r256 => some .r256 | .r512 => some .r512 | .r1024 => some .r1024
  | _ => none

theorem ofBank?_eq_some_iff {b : Bank} {i : WideBank} : ofBank? b = some i ↔ i.toBank = b := by
  cases b <;> cases i <;> decide

end WideBank

end VerdictMachine
