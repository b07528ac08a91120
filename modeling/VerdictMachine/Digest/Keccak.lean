import VerdictMachine.Bytes

/-!
# SHA3-256

The sponge over the 1600-bit permutation with a rate of 136 bytes. A state is
twenty-five lanes; lane `x + 5 * y` stands at column `x` and row `y`.
-/

set_option autoImplicit false

namespace VerdictMachine

/-- A 256-bit digest. -/
abbrev Digest := Block 32

namespace Keccak

abbrev Lanes := Vector UInt64 25

def rotateLeft (x k : UInt64) : UInt64 := (x <<< k) ||| (x >>> (64 - k))

def theta (a : Lanes) : Lanes :=
  let parity : Vector UInt64 5 := Vector.ofFn fun x =>
    a[x.val] ^^^ a[x.val + 5] ^^^ a[x.val + 10] ^^^ a[x.val + 15] ^^^ a[x.val + 20]
  Vector.ofFn fun i =>
    a[i] ^^^ parity[(i.val + 4) % 5] ^^^ rotateLeft parity[(i.val + 1) % 5] 1

/-- Rotation amounts, by lane. -/
def rotations : Vector UInt64 25 :=
  #v[0, 1, 62, 28, 27, 36, 44, 6, 55, 20, 3, 10, 43, 25, 39, 41, 45, 15, 21, 8, 18, 2, 61, 56, 14]

/-- Lane `(x, y)` takes the rotated lane at `(x + 3 * y, x)`. -/
def rhoPi (a : Lanes) : Lanes :=
  Vector.ofFn fun i =>
    let source := (i.val % 5 + 3 * (i.val / 5)) % 5 + 5 * (i.val % 5)
    have h : source < 25 := by omega
    rotateLeft a[source] rotations[source]

def chi (a : Lanes) : Lanes :=
  Vector.ofFn fun i =>
    let row := 5 * (i.val / 5)
    have h1 : row + (i.val + 1) % 5 < 25 := by omega
    have h2 : row + (i.val + 2) % 5 < 25 := by omega
    a[i] ^^^ (~~~a[row + (i.val + 1) % 5] &&& a[row + (i.val + 2) % 5])

def roundConstants : List UInt64 :=
  [0x0000000000000001, 0x0000000000008082, 0x800000000000808A, 0x8000000080008000,
   0x000000000000808B, 0x0000000080000001, 0x8000000080008081, 0x8000000000008009,
   0x000000000000008A, 0x0000000000000088, 0x0000000080008009, 0x000000008000000A,
   0x000000008000808B, 0x800000000000008B, 0x8000000000008089, 0x8000000000008003,
   0x8000000000008002, 0x8000000000000080, 0x000000000000800A, 0x800000008000000A,
   0x8000000080008081, 0x8000000000008080, 0x0000000080000001, 0x8000000080008008]

def round (a : Lanes) (constant : UInt64) : Lanes :=
  let b := chi (rhoPi (theta a))
  b.set 0 (b[0] ^^^ constant)

def permute (a : Lanes) : Lanes := roundConstants.foldl round a

/-- Bytes absorbed by one application of the permutation. -/
def rate : Nat := 136

/-- Eight bytes a lane, little-endian. -/
def lanes : Nat → Bytes → List UInt64
  | 0, _ => []
  | n + 1, bs => UInt64.ofNat (Bytes.toNatLE (bs.take 8)) :: lanes n (bs.drop 8)

def absorbBlock (a : Lanes) (block : Bytes) : Lanes :=
  let words := (lanes (rate / 8) block).toArray
  permute (Vector.ofFn fun i => a[i] ^^^ words.getD i.val 0)

/-- Absorbs `n` blocks from the front of a byte string. -/
def absorb : Nat → Lanes → Bytes → Lanes
  | 0, a, _ => a
  | n + 1, a, bs => absorb n (absorbBlock a (bs.take rate)) (bs.drop rate)

/-- Domain bits `01`, a one, zeros and a closing one, up to a whole block. -/
def padding (len : Nat) : Bytes :=
  match rate - len % rate with
  | 0 | 1 => [0x86]
  | n + 2 => 0x06 :: (List.replicate n 0 ++ [0x80])

def squeeze (a : Lanes) : Bytes :=
  (a.toList.take 4).flatMap fun lane => Bytes.ofNatLE 8 lane.toNat

end Keccak

def sha3 (data : Bytes) : Digest :=
  let len := data.length
  Block.fit 32 <| Keccak.squeeze <|
    Keccak.absorb (len / Keccak.rate + 1) (Vector.replicate 25 0) (data ++ Keccak.padding len)

end VerdictMachine
