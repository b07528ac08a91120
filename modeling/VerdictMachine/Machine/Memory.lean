import VerdictMachine.Bytes
import VerdictMachine.Fault
import VerdictMachine.Segment

/-!
# Data memory

The segments that a run owns. The constant segment belongs to the program that
executes and is passed in. The output segment is written only; its length is
the end of the furthest write.
-/

set_option autoImplicit false

namespace VerdictMachine

structure Memory where
  static : Region
  input : Region
  outputCells : Region
  outputLength : Nat

namespace Memory

def initial (staticCapacity outputCapacity : Nat) (input : Bytes) : Memory :=
  ⟨Region.zeros staticCapacity, input.toArray, Region.zeros outputCapacity, 0⟩

def output (m : Memory) : Bytes := m.outputCells.read 0 m.outputLength

def length (m : Memory) (constants : Region) : Segment → Nat
  | .constant => constants.size
  | .static => m.static.size
  | .input => m.input.size
  | .output => m.outputLength
  | .code | .callStack => 0

/-- The cells that can be read, if the segment can be read at all. -/
def readable? (m : Memory) (constants : Region) : Segment → Option Region
  | .constant => some constants
  | .static => some m.static
  | .input => some m.input
  | .output | .code | .callStack => none

def read (m : Memory) (constants : Region) (segment : Segment) (address : UInt32) (len : Nat) :
    Except Fault Bytes :=
  match m.readable? constants segment with
  | some cells =>
    match Segment.range? cells.size address len with
    | some (start, _) => .ok (cells.read start len)
    | none => .error .segmentOutOfBounds
  | none => .error .segmentOutOfBounds

/-- How many bytes a segment can take, if it can be written at all. -/
def capacity? (m : Memory) : Segment → Option Nat
  | .static => some m.static.size
  | .output => some m.outputCells.size
  | .constant | .input | .code | .callStack => none

def admits (m : Memory) (segment : Segment) (address : UInt32) (len : Nat) : Bool :=
  match m.capacity? segment with
  | some capacity => (Segment.range? capacity address len).isSome
  | none => false

/-- Writes without a check; only `admits` makes it meaningful. -/
def store (m : Memory) (segment : Segment) (address : UInt32) (bs : Bytes) : Memory :=
  match segment with
  | .static => { m with static := m.static.overwrite address.toNat bs }
  | .output =>
    { m with
      outputCells := m.outputCells.overwrite address.toNat bs
      outputLength := max m.outputLength (address.toNat + bs.length) }
  | .constant | .input | .code | .callStack => m

-- Inlined, so that the segment has one owner when it is written.
@[inline]
def write (m : Memory) (segment : Segment) (address : UInt32) (bs : Bytes) : Except Fault Memory :=
  if m.admits segment address bs.length then .ok (m.store segment address bs)
  else .error .segmentOutOfBounds

def summary (m : Memory) : String :=
  s!"DataMemory \x7b static_len: {m.static.size}, input_len: {m.input.size}, " ++
    s!"output_capacity: {m.outputCells.size}, output_len: {m.outputLength} \x7d"

end Memory

end VerdictMachine
