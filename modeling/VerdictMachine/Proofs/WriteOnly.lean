import VerdictMachine.Proofs.Likeness
import VerdictMachine.Proofs.Metering

/-!
# Output is write-only

Nothing flows from the contents of the output segment back into execution. Its
length can be asked for and its capacity decides what fits, but the bytes
themselves are read by no instruction. So machines that differ in these bytes
alone take the same steps, with the same events, and never come to differ in
anything else.
-/

set_option autoImplicit false

namespace VerdictMachine

/-- Memories that differ at most in the contents of their output cells. -/
structure Memory.AgreeButOutput (a b : Memory) : Prop where
  static : b.static = a.static
  input : b.input = a.input
  outputLength : b.outputLength = a.outputLength
  outputCapacity : b.outputCells.size = a.outputCells.size

namespace Memory.AgreeButOutput

variable {a b : Memory}

theorem admits_eq (h : a.AgreeButOutput b) (seg : Segment) (address : UInt32) (len : Nat) :
    b.admits seg address len = a.admits seg address len := by
  have hcapacity : b.capacity? seg = a.capacity? seg := by
    cases seg with
    | static => exact congrArg (fun cells => some cells.size) h.static
    | output => exact congrArg some h.outputCapacity
    | _ => rfl
  rw [admits, admits, hcapacity]

theorem store (h : a.AgreeButOutput b) (seg : Segment) (address : UInt32) (bs : Bytes) :
    (a.store seg address bs).AgreeButOutput (b.store seg address bs) := by
  cases seg with
  | static =>
    exact { h with static := congrArg (Region.overwrite · address.toNat bs) h.static }
  | output =>
    refine { h with outputLength := ?_, outputCapacity := ?_ }
    · exact congrArg (max · (address.toNat + bs.length)) h.outputLength
    · simpa [Memory.store] using h.outputCapacity
  | _ => exact h

end Memory.AgreeButOutput

/-- Output cells are overwritten but not read, so what they hold makes no difference. -/
def Likeness.butOutput : Likeness where
  memory := Memory.AgreeButOutput
  stack := Eq
  read_eq h := Memory.read_congr h.static h.input
  length_eq h := Memory.length_congr h.static h.input h.outputLength
  memory_store h := fun _ => h.store _ _ _
  top_eq h := congrArg CallStack.top h.symm
  peek_eq h := congrArg CallStack.peek h.symm
  stack_store h := fun _ => congrArg (CallStack.store · _) h
  stack_drop h f := congrArg (CallStack.drop · f) h

namespace Machine

variable {m m' : Machine}

/-- Machines that differ at most in the contents of their output cells. -/
structure AgreeButOutput (m m' : Machine) : Prop where
  program : m'.program = m.program
  libraries : m'.libraries = m.libraries
  pc : m'.pc = m.pc
  registers : m'.registers = m.registers
  control : m'.control = m.control
  memory : m.memory.AgreeButOutput m'.memory
  stack : m'.stack = m.stack
  state : m'.state = m.state

theorem agreeButOutput_iff : m.AgreeButOutput m' ↔ Likeness.butOutput.Alike m m' := by
  constructor
  · intro h
    obtain ⟨program, libraries, pc, registers, control, memory, stack, state⟩ := m'
    obtain ⟨rfl, rfl, rfl, rfl, rfl, hm, rfl, rfl⟩ := h
    exact .intro hm rfl
  · intro h
    cases h with
    | intro hm hs => exact ⟨rfl, rfl, rfl, rfl, rfl, hm, hs.symm, rfl⟩

namespace AgreeButOutput

theorem sameRoom (h : m.AgreeButOutput m') (d : Decoded) : Likeness.SameRoom m m' d := by
  unfold Likeness.SameRoom
  cases d.instruction with
  | st seg bank src addr => exact h.memory.admits_eq seg _ _
  | call t => exact congrArg (CallStack.fits · _) h.stack
  | callLib library entry => exact congrArg (CallStack.fits · _) h.stack
  | _ => trivial

theorem step (h : m.AgreeButOutput m') (host : Resolver) :
    Likeness.butOutput.SameReport (m.step host) (m'.step host) :=
  Likeness.step_same (agreeButOutput_iff.mp h) (fun d _ => h.sameRoom d) host

theorem after (h : m.AgreeButOutput m') (hosts : Nat → Resolver) (n : Nat) :
    (m.after hosts n).AgreeButOutput (m'.after hosts n) := by
  induction n with
  | zero => exact h
  | succ n ih => exact agreeButOutput_iff.mpr (ih.step (hosts n)).machine

theorem record_eq (h : m.AgreeButOutput m') (hosts : Nat → Resolver) (n : Nat) :
    ((Run.ofMachine m').after hosts n).events = ((Run.ofMachine m).after hosts n).events ∧
      ((Run.ofMachine m').after hosts n).lookups = ((Run.ofMachine m).after hosts n).lookups := by
  induction n with
  | zero => exact ⟨rfl, rfl⟩
  | succ n ih =>
    have hs := (h.after hosts n).step (hosts n)
    simp only [Run.after, Run.events_step, Run.lookups_step, Run.machine_after]
    exact ⟨congrArg₂ _ ih.1 hs.events, congrArg₂ _ ih.2 (congrArg Option.toList hs.lookup)⟩

theorem failure_iff (h : m.AgreeButOutput m') (reason : Reason) (count complexity : UInt64)
    (used : UInt32) :
    m'.verdict? = some (.failure reason count complexity used) ↔
      m.verdict? = some (.failure reason count complexity used) := by
  unfold verdict?
  rw [h.state, h.control]
  cases m.state with
  | succeeded => exact ⟨nofun, nofun⟩
  | _ => exact Iff.rfl

end AgreeButOutput

/-- Machines that differ in the bytes of their output alone differ in nothing else after any
number of steps, whatever the hosts answer. Each step ends the same and reports the same, the
whole record is the same, and if one fails then so does the other, with the same verdict. -/
theorem output_write_only (h : m.AgreeButOutput m') (hosts : Nat → Resolver) (n : Nat) :
    (m.after hosts n).AgreeButOutput (m'.after hosts n) ∧
    (let r := (m.after hosts n).step (hosts n)
     let r' := (m'.after hosts n).step (hosts n)
     r'.outcome = r.outcome ∧ r'.events = r.events ∧ r'.lookup = r.lookup) ∧
    ((Run.ofMachine m').after hosts n).events = ((Run.ofMachine m).after hosts n).events ∧
    ((Run.ofMachine m').after hosts n).lookups = ((Run.ofMachine m).after hosts n).lookups ∧
    ∀ reason count complexity used,
      (m'.after hosts n).verdict? = some (.failure reason count complexity used) ↔
        (m.after hosts n).verdict? = some (.failure reason count complexity used) := by
  have hn := h.after hosts n
  have hs := hn.step (hosts n)
  obtain ⟨he, hl⟩ := h.record_eq hosts n
  exact ⟨hn, ⟨hs.outcome, hs.events, hs.lookup⟩, he, hl, hn.failure_iff⟩

/-- A byte is put out, then another stands in its place. The program goes on to ask for the
length of its output and succeeds either way, with equal registers. -/
theorem output_write_only_length :
    ∃ p m₀, Program.load [0x10, 0, 1, 7, 0x17, 3, 0, 1, 0, 0x18, 3, 2, 1] [] = .ok p ∧
      Machine.load p [] { outputCapacity := 1 } = .ok m₀ ∧
      let hosts := fun _ => Resolver.none
      let m := m₀.after hosts 2
      let m' := { m with memory := { m.memory with outputCells := #[9] } }
      m.memory.output = [7] ∧ m'.memory.output = [9] ∧ m.AgreeButOutput m' ∧
        (m.after hosts 2).state = .succeeded ∧ (m'.after hosts 2).state = .succeeded ∧
        (m.after hosts 2).registers.a32 2 = 1 ∧ (m'.after hosts 2).registers.a32 2 = 1 := by
  obtain ⟨p, m₀, hp, hm, ho, hsize, hlen, hs, hr⟩ :
      ∃ p m₀, Program.load [0x10, 0, 1, 7, 0x17, 3, 0, 1, 0, 0x18, 3, 2, 1] [] = .ok p ∧
        Machine.load p [] { outputCapacity := 1 } = .ok m₀ ∧
        (m₀.after (fun _ => Resolver.none) 2).memory.output = [7] ∧
        (m₀.after (fun _ => Resolver.none) 2).memory.outputCells.size = 1 ∧
        (m₀.after (fun _ => Resolver.none) 2).memory.outputLength = 1 ∧
        ((m₀.after (fun _ => Resolver.none) 2).after (fun _ => Resolver.none) 2).state =
          .succeeded ∧
        ((m₀.after (fun _ => Resolver.none) 2).after (fun _ => Resolver.none) 2).registers.a32 2 =
          1 := by
    exact ⟨_, _, rfl, rfl, by decide +kernel⟩
  have hagree : (m₀.after (fun _ => Resolver.none) 2).AgreeButOutput
      { m₀.after (fun _ => Resolver.none) 2 with
        memory := { (m₀.after (fun _ => Resolver.none) 2).memory with outputCells := #[9] } } :=
    ⟨rfl, rfl, rfl, rfl, rfl, ⟨rfl, rfl, rfl, hsize.symm⟩, rfl, rfl⟩
  obtain ⟨hafter, -⟩ := output_write_only hagree (fun _ => Resolver.none) 2
  refine ⟨p, m₀, hp, hm, ho, ?_, hagree, hs, hafter.state.trans hs, hr, ?_⟩
  · rw [Memory.output, hlen]
    rfl
  · rw [hafter.registers]
    exact hr

end Machine

end VerdictMachine
