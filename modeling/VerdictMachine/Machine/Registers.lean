import VerdictMachine.Bank
import VerdictMachine.Bytes

/-!
# The register file

All registers of all banks in one image of bytes. A register is the run of
bytes that starts at its slot; values are held little-endian.
-/

set_option autoImplicit false

namespace VerdictMachine

structure RegisterFile where
  image : Region
  size_image : image.size = 8608

namespace RegisterFile

def bytes : Nat := 8608

def zero : RegisterFile := ⟨Region.zeros 8608, Region.size_zeros 8608⟩

def ofBytes? (bs : Bytes) : Option RegisterFile :=
  if h : bs.length = 8608 then some ⟨bs.toArray, by simpa using h⟩ else none

/-- What is said of an image of the wrong length. -/
def lengthMessage (n : Nat) : String :=
  s!"invalid length {n}, expected a complete register file image"

def slot (rf : RegisterFile) (bank : Bank) (r : Register) : Bytes :=
  rf.image.read (bank.slotStart r) bank.bytes

/-- Writes a whole register: a shorter byte string is continued with zeros, a
longer one is cut. -/
def write (rf : RegisterFile) (bank : Bank) (r : Register) (bs : Bytes) : RegisterFile :=
  ⟨rf.image.overwrite (bank.slotStart r) (Block.fit bank.bytes bs).bytes, by
    rw [Region.size_overwrite, rf.size_image]⟩

def swap (rf : RegisterFile) (bank : Bank) (a b : Register) : RegisterFile :=
  let x := rf.slot bank a
  let y := rf.slot bank b
  (rf.write bank a y).write bank b x

/-- The low eight bytes of a register as a number. -/
def read64 (rf : RegisterFile) (bank : Bank) (r : Register) : UInt64 :=
  UInt64.ofNat (Bytes.toNatLE ((rf.slot bank r).take 8))

def write64 (rf : RegisterFile) (bank : Bank) (r : Register) (v : UInt64) : RegisterFile :=
  rf.write bank r (Bytes.ofNatLE 8 v.toNat)

def a16 (rf : RegisterFile) (r : Register) : UInt16 := (rf.read64 .a16 r).toUInt16

def a32 (rf : RegisterFile) (r : Register) : UInt32 := (rf.read64 .a32 r).toUInt32

def a64 (rf : RegisterFile) (r : Register) : UInt64 := rf.read64 .a64 r

def setA32 (rf : RegisterFile) (r : Register) (v : UInt32) : RegisterFile :=
  rf.write64 .a32 r v.toUInt64

def setA64 (rf : RegisterFile) (r : Register) (v : UInt64) : RegisterFile := rf.write64 .a64 r v

/-- The registers in which two files differ, bank by bank and by index. -/
def changes (old new : RegisterFile) : List (Bank × Register) :=
  Bank.all.flatMap fun bank =>
    ((List.finRange 32).filter fun r => old.slot bank r != new.slot bank r).map (bank, ·)

def summary (rf : RegisterFile) : String :=
  let nonzero := rf.image.foldl (fun n b => if b = 0 then n else n + 1) 0
  s!"RegisterFile \x7b bytes: {rf.image.size}, nonzero_bytes: {nonzero} \x7d"

end RegisterFile

end VerdictMachine
