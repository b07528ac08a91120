import VerdictMachine.Fault
import VerdictMachine.Program.Identity

/-!
# The call stack

Return frames in an arena of bytes. A frame is written with its tag last, so
the byte below the top tells how far the top frame reaches down.
-/

set_option autoImplicit false

namespace VerdictMachine

/-- A plain frame returns into the program that is executing, a library frame
into the program that called it. -/
inductive Frame where
  | plain (ret : UInt16)
  | library (caller : ProgramId) (ret : UInt16)
  deriving DecidableEq

namespace Frame

def size : Frame → Nat
  | .plain _ => 3
  | .library .. => 35

def bytes : Frame → Bytes
  | .plain ret => Bytes.ofNatLE 2 ret.toNat ++ [0x00]
  | .library caller ret => caller.bytes ++ Bytes.ofNatLE 2 ret.toNat ++ [0x01]

theorem length_bytes (f : Frame) : f.bytes.length = f.size := by
  cases f with
  | plain ret => simp [bytes, size]
  | library caller ret => simp [bytes, size, ProgramId.bytes, caller.digest.length_bytes]

end Frame

structure CallStack where
  arena : Region
  top : Nat

namespace CallStack

def initial (capacity : Nat) : CallStack := ⟨Region.zeros capacity, 0⟩

def capacity (s : CallStack) : Nat := s.arena.size

def isEmpty (s : CallStack) : Bool := s.top == 0

def fits (s : CallStack) (f : Frame) : Bool := s.top + f.size ≤ s.arena.size

/-- Writes a frame without a check; only `fits` makes it meaningful. -/
def store (s : CallStack) (f : Frame) : CallStack :=
  ⟨s.arena.overwrite s.top f.bytes, s.top + f.size⟩

-- Inlined, so that the arena has one owner when it is written.
@[inline]
def push (s : CallStack) (f : Frame) : Except Fault CallStack :=
  if s.fits f then .ok (s.store f) else .error .stackOverflow

def returnOffset (bs : Bytes) : UInt16 := UInt16.ofNat (Bytes.toNatLE bs)

/-- The frame below the top, if the bytes there are one. -/
def peek (s : CallStack) : Option Frame :=
  if s.top = 0 then none
  else
    match s.arena[s.top - 1]? with
    | some 0x00 =>
      if s.top < 3 then none else some (.plain (returnOffset (s.arena.read (s.top - 3) 2)))
    | some 0x01 =>
      if s.top < 35 then none
      else
        some (.library ⟨Block.fit 32 (s.arena.read (s.top - 35) 32)⟩
          (returnOffset (s.arena.read (s.top - 3) 2)))
    | _ => none

def drop (s : CallStack) (f : Frame) : CallStack := { s with top := s.top - f.size }

def pop (s : CallStack) : Except Fault (Frame × CallStack) :=
  match s.peek with
  | some f => .ok (f, s.drop f)
  | none => .error .stackUnderflow

end CallStack

end VerdictMachine
