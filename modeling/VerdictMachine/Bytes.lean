/-!
# Byte strings and byte regions

A byte string (`Bytes`) is a value that is passed around: an operand, a digest,
a slice. A region (`Region`) is a run of byte cells that is written in place:
a segment, the register image, the arena of the call stack. A block is a byte
string of a fixed length.
-/

set_option autoImplicit false

namespace VerdictMachine

abbrev Bytes := List UInt8

namespace Bytes

/-- The number a byte string denotes, least significant byte first. -/
def toNatLE : Bytes → Nat
  | [] => 0
  | b :: bs => b.toNat + 256 * toNatLE bs

/-- The number a byte string denotes, most significant byte first. -/
def toNatBE (bs : Bytes) : Nat :=
  bs.foldl (fun n b => 256 * n + b.toNat) 0

/-- The `n` low bytes of a number, least significant byte first. -/
def ofNatLE : Nat → Nat → Bytes
  | 0, _ => []
  | n + 1, x => UInt8.ofNat x :: ofNatLE n (x / 256)

/-- The `n` low bytes of a number, most significant byte first. -/
def ofNatBE (n x : Nat) : Bytes := (ofNatLE n x).reverse

def ofText (s : String) : Bytes := s.toUTF8.toList

private def hexDigit (n : Nat) : Char :=
  if n < 10 then Char.ofNat (48 + n) else Char.ofNat (87 + n)

/-- Two lowercase hexadecimal digits for each byte. -/
def hex (bs : Bytes) : String :=
  String.ofList (bs.flatMap fun b => [hexDigit (b.toNat / 16), hexDigit (b.toNat % 16)])

@[simp] theorem length_ofNatLE (n x : Nat) : (ofNatLE n x).length = n := by
  induction n generalizing x with
  | zero => rfl
  | succ n ih => simp [ofNatLE, ih]

theorem shiftLeft_byte (n : Nat) : 1 <<< (8 * (n + 1)) = 256 * 1 <<< (8 * n) := by
  rw [Nat.shiftLeft_eq, Nat.shiftLeft_eq, Nat.mul_succ, Nat.pow_add]
  omega

theorem toNatLE_lt (bs : Bytes) : toNatLE bs < 1 <<< (8 * bs.length) := by
  induction bs with
  | nil => simp [toNatLE]
  | cons b bs ih =>
    have hb := b.toNat_lt
    rw [toNatLE, List.length_cons, shiftLeft_byte]
    omega

theorem toNatLE_ofNatLE (n x : Nat) : toNatLE (ofNatLE n x) = x % (1 <<< (8 * n)) := by
  induction n generalizing x with
  | zero => simp [ofNatLE, toNatLE, Nat.mod_one]
  | succ n ih =>
    have h : (UInt8.ofNat x).toNat = x % 256 := by simp
    rw [ofNatLE, toNatLE, ih, h, shiftLeft_byte, Nat.mod_mul]

theorem ofNatLE_toNatLE (bs : Bytes) : ofNatLE bs.length (toNatLE bs) = bs := by
  induction bs with
  | nil => rfl
  | cons b bs ih =>
    have hb := b.toNat_lt
    have hd : (b.toNat + 256 * toNatLE bs) / 256 = toNatLE bs := by omega
    have hm : UInt8.ofNat (b.toNat + 256 * toNatLE bs) = b := by
      apply UInt8.toNat_inj.mp
      simp only [UInt8.toNat_ofNat']
      omega
    simp only [toNatLE, List.length_cons, ofNatLE, hd, hm, ih]

end Bytes

/-- A byte string of exactly `n` bytes. -/
structure Block (n : Nat) where
  bytes : Bytes
  length_bytes : bytes.length = n
  deriving DecidableEq

namespace Block

/-- The first `n` bytes of a string, continued with zeros if it is shorter. -/
def fit (n : Nat) (bs : Bytes) : Block n :=
  ⟨(bs ++ List.replicate n 0).take n, by simp⟩

def zero (n : Nat) : Block n := ⟨List.replicate n 0, List.length_replicate⟩

theorem ext {n : Nat} {a b : Block n} (h : a.bytes = b.bytes) : a = b := by
  cases a; cases b; simp_all

theorem fit_bytes {n : Nat} (b : Block n) : fit n b.bytes = b := by
  apply ext
  simp [fit, b.length_bytes]

end Block

abbrev Region := Array UInt8

namespace Region

def zeros (n : Nat) : Region := Array.replicate n 0

/-- The bytes of the cells `start, …, start + len - 1` that exist. -/
def read (cells : Region) (start len : Nat) : Bytes :=
  (cells.extract start (start + len)).toList

/-- Writes a byte string into consecutive cells. Cells past the end are not made. -/
def overwrite : Region → Nat → Bytes → Region
  | cells, _, [] => cells
  | cells, i, b :: bs => overwrite (cells.setIfInBounds i b) (i + 1) bs

@[simp] theorem size_zeros (n : Nat) : (zeros n).size = n := by simp [zeros]

@[simp] theorem size_overwrite (cells : Region) (start : Nat) (bs : Bytes) :
    (cells.overwrite start bs).size = cells.size := by
  induction bs generalizing cells start with
  | nil => rfl
  | cons b bs ih => simp [overwrite, ih]

theorem overwrite_frame (cells : Region) (start : Nat) (bs : Bytes) (i : Nat)
    (h : i < start ∨ start + bs.length ≤ i) : (cells.overwrite start bs)[i]? = cells[i]? := by
  induction bs generalizing cells start with
  | nil => rfl
  | cons b bs ih =>
    simp only [List.length_cons] at h
    rw [overwrite, ih _ _ (by omega), Array.getElem?_setIfInBounds, if_neg (by omega)]

theorem overwrite_get (cells : Region) (start : Nat) (bs : Bytes) (i : Nat)
    (hi : i < bs.length) (hc : start + i < cells.size) :
    (cells.overwrite start bs)[start + i]? = some bs[i] := by
  induction bs generalizing cells start i with
  | nil => simp at hi
  | cons b bs ih =>
    cases i with
    | zero =>
      rw [overwrite, overwrite_frame _ _ _ _ (by omega), Array.getElem?_setIfInBounds]
      simp at hc
      simp [hc]
    | succ i =>
      have hs : start + (i + 1) = start + 1 + i := by omega
      rw [overwrite, hs]
      simpa using ih (cells.setIfInBounds start b) (start + 1) i (by simpa using hi)
        (by simp; omega)

end Region

end VerdictMachine
