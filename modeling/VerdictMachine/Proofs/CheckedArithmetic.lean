import VerdictMachine.Proofs.Addition
import VerdictMachine.Proofs.Failures
import VerdictMachine.Proofs.Multiplication

/-!
# Checked arithmetic on registers

An integer operation has an exact result, and its flag says whether a number fits
the width: the result itself, or the quotient where a remainder is asked for. The
instruction reads both operands from their registers before it writes, so that it
does not matter which registers coincide; it leaves the pattern of the exact
result in the destination, the flag in the carry, and everything else alone. A
division by zero has no result and is counted as a failure.
-/

set_option autoImplicit false

namespace VerdictMachine

namespace IntOp

/-- The exact result of an operation: quotients go toward zero, and a remainder takes the sign of
the dividend. -/
def exact : IntOp → Int → Int → Int
  | .add, a, b => a + b
  | .sub, a, b => a - b
  | .mul, a, b => a * b
  | .div, a, b => a.tdiv b
  | .rem, a, b => a.tmod b

/-- The number that has to fit: the result, or the quotient that belongs to a remainder. -/
def checked : IntOp → Int → Int → Int
  | .rem, a, b => a.tdiv b
  | op, a, b => op.exact a b

/-- The operation has no result. -/
def Undefined (op : IntOp) (b : Int) : Prop := (op = .div ∨ op = .rem) ∧ b = 0

end IntOp

namespace Word

variable {w : Nat} {x y : Word w} {signed : Bool}

/-- A word and a flag as an operation has to give them. -/
structure Meets (op : IntOp) (signed : Bool) (x y : Word w) (r : Word w × Bool) : Prop where
  canonical : r.1.Canonical
  result : (r.1.toNat : Int) ≡ op.exact (x.reading signed) (y.reading signed) [ZMOD 2 ^ w]
  flag : r.2 = true ↔ ¬ Fits w signed (op.checked (x.reading signed) (y.reading signed))

theorem meets_add (hx : x.Canonical) (hy : y.Canonical) (hw : 0 < w) (signed : Bool) :
    Meets .add signed x y (x.add y signed) := by
  refine ⟨canonical_add x y signed, add_modEq_reading hx hy hw signed signed, ?_⟩
  cases signed with
  | true => exact add_flag_signed hx hy hw
  | false =>
    have hpow : ((2 ^ w : Nat) : Int) = 2 ^ w := by norm_cast
    change _ ↔ ¬ Fits w false ((x.toNat : Int) + y.toNat)
    rw [fits_unsigned_iff, add_flag_unsigned hx hy]
    omega

theorem meets_sub (hx : x.Canonical) (hy : y.Canonical) (hw : 0 < w) (signed : Bool) :
    Meets .sub signed x y (x.sub y signed) := by
  refine ⟨canonical_sub x y signed, sub_modEq_reading hx hy hw signed signed, ?_⟩
  cases signed with
  | true => exact sub_flag_signed hx hy hw
  | false =>
    have hlt := hx.natCast_lt
    change _ ↔ ¬ Fits w false ((x.toNat : Int) - y.toNat)
    rw [fits_unsigned_iff, sub_flag_unsigned hx hy]
    omega

theorem meets_mul (hx : x.Canonical) (hy : y.Canonical) (hw : 0 < w) (signed : Bool) :
    Meets .mul signed x y (x.mul y signed) := by
  refine ⟨canonical_mul x y signed, ?_, ?_⟩
  · rw [toNat_mul, Int.natCast_mod, Nat.cast_mul, Nat.cast_pow, Nat.cast_ofNat]
    exact (Int.mod_modEq _ _).trans
      ((reading_modEq hx hw signed).symm.mul (reading_modEq hy hw signed).symm)
  · cases signed with
    | true => exact mul_flag_signed hx hy hw
    | false =>
      have hpow : ((2 ^ w : Nat) : Int) = 2 ^ w := by norm_cast
      change _ ↔ ¬ Fits w false ((x.toNat : Int) * y.toNat)
      rw [fits_unsigned_iff, mul_flag_unsigned, ← Nat.cast_mul]
      omega

theorem meets_of_reading {q r : Word w} (hq : q.Canonical) (hr : r.Canonical) (hw : 0 < w)
    (hquot : q.reading signed = (x.reading signed).tdiv (y.reading signed))
    (hrem : r.reading signed = (x.reading signed).tmod (y.reading signed)) :
    Meets .div signed x y (q, false) ∧ Meets .rem signed x y (r, false) := by
  have hfits : Fits w signed ((x.reading signed).tdiv (y.reading signed)) :=
    hquot ▸ hq.fits_reading hw signed
  have hflag : false = true ↔ ¬ Fits w signed ((x.reading signed).tdiv (y.reading signed)) :=
    ⟨nofun, fun h => absurd hfits h⟩
  refine ⟨⟨hq, ?_, hflag⟩, ⟨hr, ?_, hflag⟩⟩
  · change (q.toNat : Int) ≡ (x.reading signed).tdiv (y.reading signed) [ZMOD _]
    rw [← hquot]
    exact (reading_modEq hq hw signed).symm
  · change (r.toNat : Int) ≡ (x.reading signed).tmod (y.reading signed) [ZMOD _]
    rw [← hrem]
    exact (reading_modEq hr hw signed).symm

theorem meets_overflow (hx : x.Canonical) (hw : 0 < w)
    (h : x.toInt = -(2 ^ (w - 1) : Nat) ∧ y.toInt = -1) :
    Meets .div true x y (x, true) ∧ Meets .rem true x y (zero w, true) := by
  obtain ⟨hmin, hone⟩ := h
  have hhalf := pow_half hw
  have hpos := Nat.two_pow_pos (w - 1)
  have hpow : ((2 ^ (w - 1) : Nat) : Int) = 2 ^ (w - 1) := by norm_cast
  have hquot : (x.reading true).tdiv (y.reading true) = 2 ^ (w - 1) := by
    change x.toInt.tdiv y.toInt = _
    rw [hone, Int.tdiv_neg, Int.tdiv_one, hmin, neg_neg, hpow]
  have hrem : (x.reading true).tmod (y.reading true) = 0 := by
    change x.toInt.tmod y.toInt = _
    rw [hone, Int.tmod_neg, Int.tmod_one]
  have hnat : (x.toNat : Int) = 2 ^ (w - 1) := by
    rcases toInt_cases hx hw with ⟨-, -, hi⟩ | ⟨-, -, hi⟩ <;> omega
  have hflag : true = true ↔ ¬ Fits w true ((x.reading true).tdiv (y.reading true)) := by
    rw [hquot, fits_signed_iff]
    simp only [true_iff]
    omega
  refine ⟨⟨hx, ?_, hflag⟩, ⟨canonical_zero w, ?_, hflag⟩⟩
  · exact (hnat.trans hquot.symm) ▸ rfl
  · change ((zero w).toNat : Int) ≡ (x.reading true).tmod (y.reading true) [ZMOD _]
    rw [toNat_zero, hrem]
    rfl

theorem meets_divMod (hx : x.Canonical) (hy : y.Canonical) (hw : 0 < w) (hy0 : y.toNat ≠ 0)
    (signed : Bool) :
    ∃ q r flag, x.divMod y signed = some (q, r, flag) ∧ Meets .div signed x y (q, flag) ∧
      Meets .rem signed x y (r, flag) := by
  cases signed with
  | false =>
    have hdiv := dividing_divide hx hy (Nat.pos_of_ne_zero hy0)
    obtain ⟨hquot, hrem⟩ := hdiv.toNat_eq
    refine ⟨_, _, _, divMod_unsigned x hy0, meets_of_reading hdiv.canonical_quotient
      hdiv.canonical_remainder hw ?_ ?_⟩
    · exact (congrArg Nat.cast hquot).trans (Int.ofNat_tdiv _ _)
    · exact (congrArg Nat.cast hrem).trans (Int.ofNat_tmod _ _)
  | true =>
    by_cases h : x.toInt = -(2 ^ (w - 1) : Nat) ∧ y.toInt = -1
    · exact ⟨_, _, _, divMod_overflow hx hy hw hy0 h, meets_overflow hx hw h⟩
    · have hdiv := dividing_magnitudes hx hy hw hy0
      exact ⟨_, _, _, divMod_signed hx hy hw hy0 h, meets_of_reading
        (canonical_withSign hdiv.canonical_quotient _)
        (canonical_withSign hdiv.canonical_remainder _) hw
        (toInt_quotient hx hy hw hy0 h) (toInt_remainder hx hy hw hy0)⟩

theorem reading_eq_zero_iff (hx : x.Canonical) (hw : 0 < w) (signed : Bool) :
    x.reading signed = 0 ↔ x.toNat = 0 := by
  have hlt := hx.toNat_lt
  have hpos := Nat.two_pow_pos (w - 1)
  cases signed with
  | false => exact Int.natCast_eq_zero
  | true =>
    change x.toInt = 0 ↔ _
    rcases toInt_cases hx hw with ⟨-, -, hi⟩ | ⟨-, hle, hi⟩ <;> omega

theorem meets_apply (hx : x.Canonical) (hy : y.Canonical) (hw : 0 < w) {op : IntOp}
    (h : ¬ op.Undefined (y.reading signed)) :
    ∃ r, op.apply x y signed = some r ∧ Meets op signed x y r := by
  have hdivisor : op = .div ∨ op = .rem → y.toNat ≠ 0 := by
    intro hop hzero
    exact h ⟨hop, (reading_eq_zero_iff hy hw signed).mpr hzero⟩
  cases op with
  | add => exact ⟨_, rfl, meets_add hx hy hw signed⟩
  | sub => exact ⟨_, rfl, meets_sub hx hy hw signed⟩
  | mul => exact ⟨_, rfl, meets_mul hx hy hw signed⟩
  | div =>
    obtain ⟨q, r, flag, hqr, hq, -⟩ := meets_divMod hx hy hw (hdivisor (.inl rfl)) signed
    exact ⟨(q, flag), by rw [IntOp.apply, div, hqr]; rfl, hq⟩
  | rem =>
    obtain ⟨q, r, flag, hqr, -, hr⟩ := meets_divMod hx hy hw (hdivisor (.inr rfl)) signed
    exact ⟨(r, flag), by rw [IntOp.apply, mod, hqr]; rfl, hr⟩

end Word

namespace Bytes

/-- The number that a byte string spells, least significant byte first: in two's complement, or
without a sign. -/
def toIntLE (bs : Bytes) : Bool → Int
  | true =>
    if 2 ^ (8 * bs.length - 1) ≤ toNatLE bs then (toNatLE bs : Int) - 2 ^ (8 * bs.length)
    else toNatLE bs
  | false => toNatLE bs

end Bytes

theorem RegisterFile.slot_write_self (rf : RegisterFile) (bank : Bank) (r : Register) {bs : Bytes}
    (h : bs.length = bank.bytes) : (rf.write bank r bs).slot bank r = bs := by
  have hfit : (Block.fit bank.bytes bs).bytes = bs := by
    rw [Block.bytes_fit_of_length (Nat.le_of_eq h), h, Nat.sub_self, List.replicate_zero,
      List.append_nil]
  have hspells :
      Region.Spells (rf.image.overwrite (bank.slotStart r) bs) (bank.slotStart r) bs := by
    apply Region.spells_overwrite
    rw [h, rf.size_image]
    exact bank.slot_end_le r
  rw [Region.spells_iff_read, h] at hspells
  change (rf.image.overwrite _ (Block.fit bank.bytes bs).bytes).read _ _ = bs
  rw [hfit]
  exact hspells

theorem IntBank.bits_pos (bank : IntBank) : 0 < bank.bits := by
  cases bank <;> decide

theorem IntBank.byteCount_bits (bank : IntBank) : Word.byteCount bank.bits = bank.toBank.bytes := by
  cases bank <;> rfl

namespace Machine

variable {d : Decoded} {m : Machine}

theorem canonical_word (m : Machine) (bank : IntBank) (r : Register) :
    (m.word bank r).Canonical := Word.canonical_ofBytes _ _

theorem reading_word (m : Machine) (bank : IntBank) (r : Register) (signed : Bool) :
    (m.word bank r).reading signed = Bytes.toIntLE (m.registers.slot bank.toBank r) signed := by
  have hnat := toNat_word m bank r
  cases signed with
  | false => exact congrArg Nat.cast hnat
  | true =>
    have hbits : 8 * (m.registers.slot bank.toBank r).length = bank.bits := by
      rw [RegisterFile.length_slot]
      rfl
    change (m.word bank r).toInt = _
    rw [Bytes.toIntLE, hbits, ← hnat]
    by_cases h : 2 ^ (bank.bits - 1) ≤ (m.word bank r).toNat
    · rw [if_pos h, Word.toInt_of_le (canonical_word m bank r) bank.bits_pos h, Nat.cast_pow,
        Nat.cast_ofNat]
    · rw [if_neg h]
      exact Word.toInt_of_lt (canonical_word m bank r) bank.bits_pos (Nat.lt_of_not_le h)

variable {op : IntOp} {signed : Bool} {bank : IntBank} {dst a b : Register}

theorem arith_of_undefined (dst a : Register)
    (h : op.Undefined (Bytes.toIntLE (m.registers.slot bank.toBank b) signed)) :
    m.arith op signed bank dst a b = m.raiseFailure := by
  obtain ⟨hop, hzero⟩ := h
  rw [← reading_word, Word.reading_eq_zero_iff (canonical_word m bank b) bank.bits_pos] at hzero
  rw [arith, (op.apply_eq_none_iff _ _ signed).mpr ⟨hop, hzero⟩]

theorem exists_arith_eq (dst a : Register)
    (h : ¬ op.Undefined (Bytes.toIntLE (m.registers.slot bank.toBank b) signed)) :
    ∃ r, m.arith op signed bank dst a b = m.setFlagged bank dst r ∧
      Word.Meets op signed (m.word bank a) (m.word bank b) r := by
  rw [← reading_word] at h
  obtain ⟨r, hr, hmeets⟩ :=
    Word.meets_apply (canonical_word m bank a) (canonical_word m bank b) bank.bits_pos h
  exact ⟨r, by rw [arith, hr], hmeets⟩

theorem slot_setFlagged (m : Machine) (dst : Register) {r : Word bank.bits × Bool} {c : Int}
    (hr : r.1.Canonical) (h : (r.1.toNat : Int) ≡ c [ZMOD 2 ^ bank.bits]) :
    (m.setFlagged bank dst r).registers.slot bank.toBank dst =
      Bytes.ofNatLE bank.toBank.bytes (c % 2 ^ bank.bits).toNat := by
  rw [← hr.toNat_eq_of_modEq h, Int.toNat_natCast, ← bank.byteCount_bits, ← Word.toBytes_eq hr]
  apply RegisterFile.slot_write_self
  rw [Word.toBytes_eq hr, Bytes.length_ofNatLE, bank.byteCount_bits]

/-! ## The step -/

theorem performs_of_unlimited (hr : m.state = .running)
    (hd : Instruction.decode m.program.code m.pc = .ok d) (hl : m.control.limit = none) :
    m.Performs d := by
  refine ⟨hr, hd, ?_⟩
  rw [Control.charge, hl]
  exact ⟨_, rfl⟩

theorem Performs.step_arith (hd : m.Performs d)
    (hi : d.instruction = .arith op signed bank dst a b) (host : Resolver) :
    m.step host = settle ((m.pay d.instruction.cost).arith op signed bank dst a b) d.next .next
      m.control.failureCount [m.startEvent d] (m.lookup? d.instruction) := by
  have hx : execute host d (m.pay d.instruction.cost) =
      .done .next ((m.pay d.instruction.cost).arith op signed bank dst a b) := by
    rw [execute, hi]
  rw [hd.step_eq host, hx, conclude]

theorem Performs.arith_legal (hd : m.Performs d)
    (hi : d.instruction = .arith op signed bank dst a b) (host : Resolver) (f : Fault) :
    (m.step host).machine.state ≠ .failed (.runtime f) := by
  have hstate : ((m.pay d.instruction.cost).arith op signed bank dst a b).state = .running := by
    rw [← hd.running, arith]
    split <;> rfl
  rw [hd.step_arith hi host]
  apply (settles_settle _ _ _ _ _ _).legal
  rw [hstate]
  intro he
  cases he

theorem Performs.step_undefined (hd : m.Performs d) (hu : m.Unsaturated)
    (hi : d.instruction = .arith op signed bank dst a b) (host : Resolver)
    (h : op.Undefined (Bytes.toIntLE (m.registers.slot bank.toBank b) signed)) :
    let r := m.step host
    r.machine.registers = m.registers ∧ r.machine.control.carry = m.control.carry ∧
      r.machine.control.failure = true ∧
      r.machine.control.failureCount.toNat = m.control.failureCount.toNat + 1 := by
  intro r
  have hr : r = _ := hd.step_arith hi host
  obtain ⟨pc, state, hm⟩ := settle_machine
    ((m.pay d.instruction.cost).arith op signed bank dst a b) d.next .next
    m.control.failureCount [m.startEvent d] (m.lookup? d.instruction)
  have hraise : (m.pay d.instruction.cost).arith op signed bank dst a b = _ :=
    arith_of_undefined dst a h
  rw [hr, hm, hraise]
  exact ⟨rfl, rfl, rfl, hu.raise⟩

theorem Performs.step_defined (hd : m.Performs d)
    (hi : d.instruction = .arith op signed bank dst a b) (host : Resolver)
    (h : ¬ op.Undefined (Bytes.toIntLE (m.registers.slot bank.toBank b) signed)) :
    let r := m.step host
    ∃ result, Word.Meets op signed (m.word bank a) (m.word bank b) result ∧
      r.outcome = .retired m.pc d.next ∧
      r.machine.registers = (m.setFlagged bank dst result).registers ∧
      r.machine.control.carry = result.2 ∧ r.machine.control.failure = m.control.failure ∧
      r.machine.control.failureCount = m.control.failureCount := by
  intro r
  obtain ⟨result, harith, hmeets⟩ := exists_arith_eq (m := m.pay d.instruction.cost) dst a h
  refine ⟨result, hmeets, ?_⟩
  have hr : r = _ := hd.step_arith hi host
  rw [harith] at hr
  rcases settle_cases ((m.pay d.instruction.cost).setFlagged bank dst result) d.next .next
    m.control.failureCount [m.startEvent d] (m.lookup? d.instruction) with
    ⟨hn | hn, -⟩ | ⟨t, es, ht, he⟩
  · cases hn
  · exact absurd rfl hn
  · obtain rfl := Option.some.inj ht
    rw [hr, he]
    exact ⟨rfl, rfl, rfl, rfl, rfl⟩

variable {hosts : Nat → Resolver} {m₀ : Machine} {p : Program} {code constants input : Bytes}
  {config : Config}

/-- An integer instruction that is executed does not fault. A division by zero writes no register
and no carry, and counts as one failure. Any other operation leaves the pattern of its exact
result in the destination and no other register changed, whichever registers coincide, and the
carry says whether the result, or the quotient that belongs to a remainder, does not fit. -/
theorem arithmetic_checked (hp : Program.load code constants = .ok p)
    (hm : Machine.load p input config = .ok m₀) (hh : ∀ k, (hosts k).Genuine) {n : Nat}
    (hd : (m₀.after hosts n).Performs d) (hi : d.instruction = .arith op signed bank dst a b)
    (host : Resolver) :
    let m := m₀.after hosts n
    let r := m.step host
    let x := Bytes.toIntLE (m.registers.slot bank.toBank a) signed
    let y := Bytes.toIntLE (m.registers.slot bank.toBank b) signed
    (∀ f, r.machine.state ≠ .failed (.runtime f)) ∧
    (op.Undefined y →
      r.machine.registers = m.registers ∧ r.machine.control.carry = m.control.carry ∧
        r.machine.control.failure = true ∧
        r.machine.control.failureCount.toNat = m.control.failureCount.toNat + 1) ∧
    (¬ op.Undefined y →
      r.outcome = .retired m.pc d.next ∧
      r.machine.registers.slot bank.toBank dst =
        Bytes.ofNatLE bank.toBank.bytes (op.exact x y % 2 ^ bank.bits).toNat ∧
      (r.machine.control.carry = true ↔ ¬ Word.Fits bank.bits signed (op.checked x y)) ∧
      r.machine.control.failure = m.control.failure ∧
      r.machine.control.failureCount = m.control.failureCount ∧
      ∀ other s, (bank.toBank, dst) ≠ (other, s) →
        r.machine.registers.slot other s = m.registers.slot other s) := by
  intro m r x y
  refine ⟨hd.arith_legal hi host, hd.step_undefined (unsaturated_after hp hm hh n) hi host, ?_⟩
  intro hdef
  obtain ⟨result, ⟨hcanon, hresult, hflag⟩, hout, hregs, hcarry, hfailure, hcount⟩ :=
    hd.step_defined hi host hdef
  rw [reading_word, reading_word] at hresult hflag
  refine ⟨hout, ?_, ?_, hfailure, hcount, ?_⟩
  · rw [hregs]
    exact slot_setFlagged _ dst hcanon hresult
  · rw [hcarry]
    exact hflag
  · intro other s hne
    rw [hregs]
    exact RegisterFile.slot_write_of_ne _ _ hne

/-- The least number modulo minus one, written over the dividend: no remainder, but a quotient
that does not fit. Dividing by what this has left changes no register. -/
theorem arithmetic_checked_minSigned :
    ∃ p m₀, Program.load
        [0x10, 0, 1, 0x80, 0x10, 0, 2, 0xFF, 0x29, 0, 1, 1, 2, 0x23, 0, 2, 2, 1] [] = .ok p ∧
      Machine.load p [] {} = .ok m₀ ∧
      let m := m₀.after fun _ => Resolver.none
      (m 2).Performs ⟨.arith .rem true .a8 1 1 2, 8, 13⟩ ∧
      Bytes.toIntLE ((m 2).registers.slot .a8 1) true = -128 ∧
      Bytes.toIntLE ((m 2).registers.slot .a8 2) true = -1 ∧
      (m 3).registers.slot .a8 1 = [0] ∧ (m 3).control.carry = true ∧
      (m 3).registers.slot .a8 2 = (m 2).registers.slot .a8 2 ∧
      (m 3).Performs ⟨.arith .div false .a8 2 2 1, 13, 18⟩ ∧
      (m 4).registers = (m 3).registers ∧ (m 4).control.carry = true ∧
      (m 4).control.failureCount.toNat = (m 3).control.failureCount.toNat + 1 := by
  obtain ⟨p, m₀, hp, hm, hr₂, hd₂, hl₂, hx, hy, hr₃, hd₃, hl₃, hz⟩ :
      ∃ p m₀, Program.load
          [0x10, 0, 1, 0x80, 0x10, 0, 2, 0xFF, 0x29, 0, 1, 1, 2, 0x23, 0, 2, 2, 1] [] = .ok p ∧
        Machine.load p [] {} = .ok m₀ ∧
        let m := m₀.after fun _ => Resolver.none
        (m 2).state = .running ∧
        Instruction.decode (m 2).program.code (m 2).pc =
          .ok ⟨.arith .rem true .a8 1 1 2, 8, 13⟩ ∧
        (m 2).control.limit = none ∧
        Bytes.toIntLE ((m 2).registers.slot .a8 1) true = -128 ∧
        Bytes.toIntLE ((m 2).registers.slot .a8 2) true = -1 ∧
        (m 3).state = .running ∧
        Instruction.decode (m 3).program.code (m 3).pc =
          .ok ⟨.arith .div false .a8 2 2 1, 13, 18⟩ ∧
        (m 3).control.limit = none ∧
        Bytes.toIntLE ((m 3).registers.slot .a8 1) false = 0 := by
    exact ⟨_, _, rfl, rfl, by decide +kernel⟩
  have hrem := performs_of_unlimited hr₂ hd₂ hl₂
  have hdiv := performs_of_unlimited hr₃ hd₃ hl₃
  obtain ⟨-, -, hdefined⟩ :=
    arithmetic_checked hp hm (fun _ => Resolver.genuine_none) hrem rfl Resolver.none
  obtain ⟨-, hundefined, -⟩ :=
    arithmetic_checked hp hm (fun _ => Resolver.genuine_none) hdiv rfl Resolver.none
  obtain ⟨-, hslot, hcarry, -, -, hother⟩ :=
    hdefined fun h => absurd (hy.symm.trans h.2) (by decide)
  obtain ⟨hregs, hkept, -, hcount⟩ := hundefined ⟨.inl rfl, hz⟩
  simp only [IntBank.toBank, hx, hy] at hslot hcarry
  have hset : (m₀.after (fun _ => Resolver.none) 3).control.carry = true := hcarry.mpr (by decide)
  exact ⟨p, m₀, hp, hm, hrem, hx, hy, hslot, hset, hother .a8 2 (by decide), hdiv, hregs,
    hkept.trans hset, hcount⟩

end Machine

end VerdictMachine
