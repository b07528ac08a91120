import Mathlib.Tactic.Common
import VerdictMachine.Machine.Verdict

/-!
# The canonical bytes of a verdict

Two verdicts that are spelled alike are equal. For this the bytes are read back:
every field of the control registers stands at a fixed place, and in a success
the register image and the control registers come last, so that the output is
all that is left between them and the length. The length itself is not needed,
and so it does no harm that only four bytes of it are written.
-/

set_option autoImplicit false

namespace VerdictMachine

namespace Bytes

/-- The number in the `len` bytes from `start` on. -/
def field (bs : Bytes) (start len : Nat) : Nat := toNatLE ((bs.drop start).take len)

theorem toNatLE_ofNatLE_of_lt {n x : Nat} (h : x < 1 <<< (8 * n)) :
    toNatLE (ofNatLE n x) = x := by
  rw [toNatLE_ofNatLE, Nat.mod_eq_of_lt h]

theorem field_eq {bs : Bytes} {start len x : Nat} (h : x < 1 <<< (8 * len))
    (hs : (bs.drop start).take len = ofNatLE len x) : bs.field start len = x := by
  rw [field, hs, toNatLE_ofNatLE_of_lt h]

end Bytes

namespace Control

def ofBytes (bs : Bytes) : Control where
  failure := (bs.field 0 1).testBit 0
  carry := (bs.field 0 1).testBit 1
  autoHalt := (bs.field 0 1).testBit 2
  failureCount := .ofNat (bs.field 1 8)
  cycles := .ofNat (bs.field 9 2)
  complexity := .ofNat (bs.field 11 8)
  limit := if bs.field 19 1 = 0 then none else some (.ofNat (bs.field 20 8))
  stackPointer := .ofNat (bs.field 28 4)

theorem length_bytes (c : Control) : c.bytes.length = byteCount := by
  simp [bytes, byteCount]

theorem testBit_flagBits (c : Control) :
    c.flagBits.toNat.testBit 0 = c.failure ∧ c.flagBits.toNat.testBit 1 = c.carry ∧
      c.flagBits.toNat.testBit 2 = c.autoHalt := by
  unfold flagBits
  cases c.failure <;> cases c.carry <;> cases c.autoHalt <;> decide

/-- Where the fields stand in the image. -/
structure Placed (c : Control) (bs : Bytes) : Prop where
  flags : (bs.drop 0).take 1 = [c.flagBits]
  failureCount : (bs.drop 1).take 8 = Bytes.ofNatLE 8 c.failureCount.toNat
  cycles : (bs.drop 9).take 2 = Bytes.ofNatLE 2 c.cycles.toNat
  complexity : (bs.drop 11).take 8 = Bytes.ofNatLE 8 c.complexity.toNat
  limited : (bs.drop 19).take 1 = [c.limit.isSome.toUInt8]
  limit : (bs.drop 20).take 8 = Bytes.ofNatLE 8 (c.limit.getD 0).toNat
  stackPointer : (bs.drop 28).take 4 = Bytes.ofNatLE 4 c.stackPointer.toNat
  length : bs.length = 32

theorem placed_bytes (c : Control) : c.Placed c.bytes :=
  ⟨rfl, rfl, rfl, rfl, rfl, rfl, rfl, c.length_bytes⟩

/-- No two fields overlap, and none is left out. -/
theorem Placed.eq_bytes {c : Control} {bs : Bytes} (h : c.Placed bs) : bs = c.bytes := by
  have hall : bs.take (0 + 1 + 8 + 2 + 8 + 1 + 8 + 4) = bs :=
    List.take_of_length_le (Nat.le_of_eq h.length)
  simp only [List.take_add, List.take_zero, List.nil_append] at hall
  rw [bytes, ← h.flags, ← h.failureCount, ← h.cycles, ← h.complexity, ← h.limited, ← h.limit,
    ← h.stackPointer]
  exact hall.symm

theorem ofBytes_bytes (c : Control) : ofBytes c.bytes = c := by
  have h := c.placed_bytes
  have hflags : c.bytes.field 0 1 = c.flagBits.toNat := by
    rw [Bytes.field, h.flags]
    exact Nat.add_zero _
  have hcount := Bytes.field_eq c.failureCount.toNat_lt h.failureCount
  have hcycles := Bytes.field_eq c.cycles.toNat_lt h.cycles
  have hcomplexity := Bytes.field_eq c.complexity.toNat_lt h.complexity
  have hlimited : c.bytes.field 19 1 = c.limit.isSome.toUInt8.toNat := by
    rw [Bytes.field, h.limited]
    exact Nat.add_zero _
  have hlimit := Bytes.field_eq (c.limit.getD 0).toNat_lt h.limit
  have hpointer := Bytes.field_eq c.stackPointer.toNat_lt h.stackPointer
  obtain ⟨hfailure, hcarry, hhalt⟩ := c.testBit_flagBits
  have hlim : (if c.bytes.field 19 1 = 0 then none else some (.ofNat (c.bytes.field 20 8))) =
      c.limit := by
    rw [hlimited, hlimit]
    cases c.limit with
    | none => rfl
    | some limit => exact congrArg some UInt64.ofNat_toNat
  unfold ofBytes
  rw [hlim, hflags, hfailure, hcarry, hhalt, hcount, hcycles, hcomplexity, hpointer]
  simp only [UInt64.ofNat_toNat, UInt16.ofNat_toNat, UInt32.ofNat_toNat]

end Control

theorem RegisterFile.ofBytes?_image (rf : RegisterFile) : ofBytes? rf.image.toList = some rf := by
  unfold ofBytes?
  rw [dif_pos (by rw [Array.length_toList, rf.size_image])]

namespace Verdict

/-- Reads a success whose tag is cut off. The parts of fixed size leave the output over. -/
def successOfBytes? (bs : Bytes) : Option Verdict :=
  let body := bs.drop 4
  let n := body.length - (RegisterFile.bytes + Control.byteCount)
  (RegisterFile.ofBytes? ((body.drop n).take RegisterFile.bytes)).map fun registers =>
    .success (body.take n) registers (Control.ofBytes (body.drop (n + RegisterFile.bytes)))

/-- Reads a failure whose tag is cut off. -/
def failureOfBytes? : Bytes → Option Verdict
  | [] => none
  | reason :: bs =>
    some (.failure (Reason.ofByte reason) (.ofNat (Bytes.field bs 0 8))
      (.ofNat (Bytes.field bs 8 8)) (.ofNat (Bytes.field bs 16 4)))

def ofBytes? : Bytes → Option Verdict
  | [] => none
  | tag :: bs =>
    if tag = successTag then successOfBytes? bs
    else if tag = failureTag then failureOfBytes? bs
    else none

theorem successOfBytes?_append {len output : Bytes} (registers : RegisterFile)
    (control : Control) (hlen : len.length = 4) :
    successOfBytes? (len ++ (output ++ (registers.image.toList ++ control.bytes))) =
      some (.success output registers control) := by
  have himage : registers.image.toList.length = RegisterFile.bytes := by
    rw [Array.length_toList, registers.size_image]
    rfl
  have hbody : (len ++ (output ++ (registers.image.toList ++ control.bytes))).drop 4 =
      output ++ (registers.image.toList ++ control.bytes) := List.drop_left' hlen
  have hn : (output ++ (registers.image.toList ++ control.bytes)).length -
      (RegisterFile.bytes + Control.byteCount) = output.length := by
    simp only [List.length_append, himage, control.length_bytes]
    omega
  unfold successOfBytes?
  dsimp only
  rw [hbody, hn, List.drop_left, List.take_left, ← List.drop_drop, List.drop_left,
    List.take_left' himage, List.drop_left' himage, RegisterFile.ofBytes?_image,
    Control.ofBytes_bytes]
  rfl

theorem failureOfBytes?_cons (reason : Reason) (count complexity : UInt64) (cycles : UInt32) :
    failureOfBytes? (reason.byte :: (Bytes.ofNatLE 8 count.toNat ++
      Bytes.ofNatLE 8 complexity.toNat ++ Bytes.ofNatLE 4 cycles.toNat)) =
      some (.failure reason count complexity cycles) := by
  unfold failureOfBytes?
  dsimp only
  rw [Reason.ofByte_byte, Bytes.field_eq count.toNat_lt rfl, Bytes.field_eq complexity.toNat_lt rfl,
    Bytes.field_eq cycles.toNat_lt rfl, UInt64.ofNat_toNat, UInt64.ofNat_toNat,
    UInt32.ofNat_toNat]

theorem ofBytes?_bytes (v : Verdict) : ofBytes? v.bytes = some v := by
  cases v with
  | success output registers control =>
    have hlen : (Bytes.ofNatLE 4 output.length).length = 4 := Bytes.length_ofNatLE _ _
    rw [bytes, List.append_assoc, List.append_assoc, List.append_assoc, List.singleton_append,
      ofBytes?, if_pos rfl]
    exact successOfBytes?_append registers control hlen
  | failure reason count complexity cycles =>
    exact failureOfBytes?_cons reason count complexity cycles

/-- The canonical bytes tell all verdicts apart, of whatever output, registers, control registers,
reason and meters. All parts can be read back from them: the reason from its byte and the control
registers from theirs, with every flag, and with a limit of zero told from no limit. -/
theorem canonical_bytes_injective :
    Function.Injective Verdict.bytes ∧ (∀ v : Verdict, ofBytes? v.bytes = some v) ∧
      (∀ c : Control, Control.ofBytes c.bytes = c) ∧ ∀ r : Reason, Reason.ofByte r.byte = r := by
  refine ⟨?_, ofBytes?_bytes, Control.ofBytes_bytes, Reason.ofByte_byte⟩
  intro v v' h
  have hread := ofBytes?_bytes v
  rw [h, ofBytes?_bytes v'] at hread
  exact (Option.some.inj hread).symm

/-- A limit of zero is not spelled like no limit. -/
theorem canonical_bytes_injective_limit :
    (success [] RegisterFile.zero (Control.initial (some 0) false)).bytes ≠
      (success [] RegisterFile.zero (Control.initial none false)).bytes := by
  intro h
  have hv := canonical_bytes_injective.1 h
  injection hv with _ _ hc
  injection hc with _ _ _ _ _ _ hlimit
  cases hlimit

end Verdict

end VerdictMachine
