import VerdictMachine.Machine.Basic

/-!
# Loads and stores

Data moves between registers and segments. An access outside its segment is a
fault and changes nothing.
-/

set_option autoImplicit false

namespace VerdictMachine.Machine

def loadRegister (m : Machine) (seg : Segment) (bank : Bank) (dst : Register) (address : UInt32) :
    Effect :=
  match m.memory.read m.program.constants seg address bank.bytes with
  | .error f => .fault f m
  | .ok bs => .done .next (m.writeRegister bank dst bs)

def storeRegister (m : Machine) (seg : Segment) (bank : Bank) (src : Register) (address : UInt32) :
    Effect :=
  match m.memory.write seg address (m.registers.slot bank src) with
  | .error f => .fault f m
  | .ok memory => .done .next { m with memory := memory }

theorem storeRegister_eq (m : Machine) (seg : Segment) (bank : Bank) (src : Register)
    (address : UInt32) :
    m.storeRegister seg bank src address =
      if m.memory.admits seg address (m.registers.slot bank src).length then
        .done .next { m with memory := m.memory.store seg address (m.registers.slot bank src) }
      else .fault .segmentOutOfBounds m := by
  unfold storeRegister Memory.write
  cases m.memory.admits seg address (m.registers.slot bank src).length <;> rfl

def segmentLength (m : Machine) (seg : Segment) (dst : Register) : Machine :=
  let size := m.memory.length m.program.constants seg
  { m with registers := m.registers.setA32 dst (UInt32.ofNat size) }

end VerdictMachine.Machine
