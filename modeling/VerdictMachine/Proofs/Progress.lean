import VerdictMachine.Proofs.Stepping

/-!
# Calls and returns go through

A step of a machine moves its course as a move says. Conversely, a call or
return that is a move of the course is made, by a machine that is running and
has no limit to its complexity.
-/

set_option autoImplicit false

namespace VerdictMachine

theorem Control.charge_of_unlimited {c : Control} (h : c.limit = none) (cost : UInt64) :
    c.charge cost = .ok { c with complexity := saturatingAdd c.complexity cost } := by
  unfold charge
  rw [h]

theorem Library.Supplies.resolve_eq {m : Machine} {host : Resolver} {id : ProgramId} {p : Program}
    (h : m.libraries.Supplies host id p) : m.resolve host id = .ok p := by
  unfold Machine.resolve
  rcases h with h | ⟨h, hhost, hid⟩
  · rw [h]
  · rw [h, hhost]
    exact if_pos hid

namespace Machine

variable {host : Resolver} {d : Decoded} {m m' : Machine} {c c' : Course}

/-- The effect of a transfer: the course it leads to, and no more. -/
structure Transfers (d : Decoded) (m : Machine) (c' : Course) (flow : Flow) (m' : Machine) :
    Prop where
  target : flow.target? d.next = some c'.pc
  course : { m'.course with pc := c'.pc } = c'
  pc : m'.pc = m.pc
  state : m'.state = m.state
  control : m'.control = { m.control with cycles := m.control.cycles + 1 }

theorem recordCycle_of_ne (h : m.control.cycles ≠ 65535) :
    m.control.recordCycle = .ok { m.control with cycles := m.control.cycles + 1 } := if_neg h

theorem pushFrame_of_fits {frame : Frame} (hf : m.stack.fits frame = true)
    (hc : m.control.cycles ≠ 65535) (flow : Flow) :
    m.pushFrame frame flow = .done flow { m with
      control := { m.control with cycles := m.control.cycles + 1 }
      stack := m.stack.store frame } := by
  rw [pushFrame_eq, hf, recordCycle_of_ne hc]
  rfl

theorem ret_of_peek {frame : Frame} (hp : m.stack.peek = some frame)
    (hc : m.control.cycles ≠ 65535) :
    m.ret = returnTo { m with
      control := { m.control with cycles := m.control.cycles + 1 }
      stack := m.stack.drop frame } frame := by
  have he : ¬ m.stack.isEmpty = true := by
    intro he
    have hnone : m.stack.peek = none := if_pos (by simpa [CallStack.isEmpty] using he)
    rw [hp] at hnone
    cases hnone
  rw [ret_eq, if_neg he, recordCycle_of_ne hc, hp]

/-- A call or return that the course allows is executed. -/
theorem execute_of_move (hi : d.instruction.movesStack = true)
    (h : Course.Move host d m.course c') :
    ∃ flow m', execute host d m = .done flow m' ∧ Transfers d m c' flow m' := by
  unfold execute
  cases h with
  | advance hn =>
    rw [hi] at hn
    cases hn
  | jump hj =>
    rw [hj] at hi
    cases hi
  | call hj hf hc =>
    rw [hj]
    exact ⟨_, _, pushFrame_of_fits hf hc _, rfl, rfl, rfl, rfl, rfl⟩
  | @enter id entry p hj hp he hf hc =>
    have hpush : m.pushFrame (.library m.program.id d.next) (.enter id entry) = _ :=
      pushFrame_of_fits hf hc _
    have hcall : m.callLibrary host id entry d.next = .done (.enter id entry) { m with
        control := { m.control with cycles := m.control.cycles + 1 }
        stack := m.stack.store (.library m.program.id d.next)
        libraries := m.libraries.insertNew id p
        program := p } := by
      rw [callLibrary, hp.resolve_eq]
      dsimp only
      rw [if_neg (by simp [he]), hpush]
      rfl
    rw [hj]
    exact ⟨_, _, hcall, rfl, rfl, rfl, rfl, rfl⟩
  | back hj hp hc =>
    rw [hj]
    exact ⟨_, _, ret_of_peek hp hc, rfl, rfl, rfl, rfl, rfl⟩
  | @leave caller ret p hj hp hl hc =>
    have hreturn : m.ret = .done (.leave caller ret) { m with
        control := { m.control with cycles := m.control.cycles + 1 }
        stack := m.stack.drop (.library caller ret)
        program := p } := by
      rw [ret_of_peek hp hc, returnTo, show m.libraries.find? caller = some p from hl]
    rw [hj]
    exact ⟨_, _, hreturn, rfl, rfl, rfl, rfl, rfl⟩

/-- A machine that no limit stops. -/
structure Ready (m : Machine) (c : Course) : Prop where
  running : m.state = .running
  unlimited : m.control.limit = none
  course : m.course = c

theorem Ready.decode_eq (h : m.Ready c) : Instruction.decode m.program.code m.pc =
    Instruction.decode c.program.code c.pc := by
  rw [← h.course]
  rfl

theorem Ready.step_of_move (host : Resolver) (h : m.Ready c)
    (hd : Instruction.decode c.program.code c.pc = .ok d)
    (hi : d.instruction.movesStack = true) (hmove : Course.Move host d c c') :
    (m.step host).machine.Ready c' ∧ (m.step host).outcome = .retired m.pc c'.pc := by
  obtain ⟨hr, hl, rfl⟩ := h
  let paid := { m.control with
    complexity := Control.saturatingAdd m.control.complexity d.instruction.cost }
  have hstep := step_of_decode host hr hd (Control.charge_of_unlimited hl d.instruction.cost)
  obtain ⟨flow, m', hx, ht⟩ := execute_of_move (m := { m with control := paid }) hi hmove
  rw [hx] at hstep
  rcases m'.settle_cases d.next flow m.control.failureCount
    [.started m.program.id m.pc d.instruction.opcode] (m.lookup? d.instruction) with
    ⟨hnone | hraised, -⟩ | ⟨t, es, htarget, hsettle⟩
  · rw [ht.target] at hnone
    cases hnone
  · rw [ht.control] at hraised
    exact absurd rfl hraised
  · obtain rfl := Option.some.inj (ht.target.symm.trans htarget)
    have hreport := hstep.trans hsettle
    rw [hreport]
    refine ⟨⟨ht.state.trans hr, ?_, ht.course⟩, by rw [ht.pc]⟩
    rw [ht.control]
    exact hl

end Machine

end VerdictMachine
