import VerdictMachine.Machine.Step
import VerdictMachine.Machine.Verdict

/-!
# Whole runs

A run is a machine together with the record of its steps: all events and all
libraries asked of the host, in order.
-/

set_option autoImplicit false

namespace VerdictMachine

structure Run where
  machine : Machine
  events : Array Event
  lookups : Array ProgramId

namespace Run

def ofMachine (m : Machine) : Run := ⟨m, #[], #[]⟩

/-- A step added to what is on record already. -/
def record (events : Array Event) (lookups : Array ProgramId) (report : Report) : Run :=
  ⟨report.machine, events ++ report.events, lookups ++ report.lookup.toList⟩

def step (host : Resolver) : Run → Run
  | ⟨m, events, lookups⟩ => record events lookups (m.step host)

/-- Steps until the machine halts, but at most `n` times. -/
def advance (host : Resolver) : Nat → Run → Run
  | 0, r => r
  | n + 1, r => if r.machine.state.isHalted then r else advance host n (r.step host)

/-- Straight-line code ends with its segment and every transfer spends one of
65535 cycles, so no run has more steps than this. -/
def maxSteps : Nat := 4294967296

def complete (host : Resolver) (r : Run) : Run := advance host maxSteps r

end Run

end VerdictMachine
