import VerdictMachine.Instruction.Decoding

/-!
# Programs

A program is a code segment and a constant segment that passed loading: the
code is a sequence of instructions from its first byte to its last, and every
jump and call inside it goes to the start of one of them. Those starts are the
boundaries of the program.
-/

set_option autoImplicit false

namespace VerdictMachine

inductive LoadError where
  | segmentTooLarge (segment : Segment) (size : Nat)
  | capacityTooLarge (segment : Segment) (requested : Nat)
  | decode (offset : UInt16) (cause : DecodeError)
  | misalignedJumpTarget (offset target : UInt16)
  deriving DecidableEq, Repr

def LoadError.message : LoadError → String
  | .segmentTooLarge segment size =>
    segment.name ++ s!" segment is {size} bytes, maximum is {segment.limit}"
  | .capacityTooLarge segment requested =>
    segment.name ++ s!" capacity of {requested} bytes exceeds maximum {segment.limit}"
  | .decode offset cause => s!"invalid instruction at offset {offset}: " ++ cause.message
  | .misalignedJumpTarget offset target =>
    s!"instruction at offset {offset} targets {target}, which is not an instruction boundary"

/-- A set of code offsets in words of 64 bits. Offset `o` has bit `o % 64` of word `o / 64`. -/
structure OffsetSet where
  words : Array UInt64

namespace OffsetSet

/-- No offset, with as many words as a segment of some size needs. -/
def empty (size : Nat) : OffsetSet := ⟨Array.replicate ((size + 63) / 64) 0⟩

def bitMask (offset : UInt16) : UInt64 := 1 <<< UInt64.ofNat (offset.toNat % 64)

def insert (s : OffsetSet) (offset : UInt16) : OffsetSet :=
  ⟨s.words.modify (offset.toNat / 64) (· ||| bitMask offset)⟩

def contains (s : OffsetSet) (offset : UInt16) : Bool :=
  match s.words[offset.toNat / 64]? with
  | some word => word &&& bitMask offset != 0
  | none => false

end OffsetSet

structure Program where
  code : Region
  constants : Region
  id : ProgramId
  boundaries : OffsetSet

namespace Program

/-- Reads instructions one after the other up to the end of the code. The fuel
bounds their number, and `found` holds those already read, the last one first. -/
def sweep (code : Region) : Nat → UInt16 → List Decoded → Except LoadError (List Decoded)
  | 0, _, found => .ok found.reverse
  | n + 1, offset, found =>
    if offset.toNat < code.size then
      match Instruction.decode code offset with
      | .error e => .error (.decode offset e)
      | .ok d => sweep code n d.next (d :: found)
    else .ok found.reverse

/-- Each instruction has at least one byte, so the size of the code is fuel enough. -/
def disassemble (code : Region) : Except LoadError (List Decoded) :=
  sweep code code.size 0 []

/-- The offsets at which instructions start. -/
def marks (size : Nat) (found : List Decoded) : OffsetSet :=
  found.foldl (fun marks d => marks.insert d.offset) (.empty size)

/-- The target of a jump or call that goes to no instruction. -/
def strayTarget? (marks : OffsetSet) (d : Decoded) : Option (UInt16 × UInt16) :=
  match d.localTarget with
  | some target => if marks.contains target then none else some (d.offset, target)
  | none => none

def load (code constants : Bytes) : Except LoadError Program :=
  if Segment.limit .code < code.length then
    .error (.segmentTooLarge .code code.length)
  else if Segment.limit .constant < constants.length then
    .error (.segmentTooLarge .constant constants.length)
  else
    let cells := code.toArray
    match disassemble cells with
    | .error e => .error e
    | .ok found =>
      let boundaries := marks cells.size found
      match found.findSome? (strayTarget? boundaries) with
      | some (offset, target) => .error (.misalignedJumpTarget offset target)
      | none => .ok ⟨cells, constants.toArray, ProgramId.ofContents code constants, boundaries⟩

/-- Whether an instruction of the program starts at an offset. -/
def isBoundary (p : Program) (offset : UInt16) : Bool := p.boundaries.contains offset

def summary (p : Program) : String :=
  "Program \x7b id: ProgramId(" ++ p.id.hex ++
    s!"), code_len: {p.code.size}, constants_len: {p.constants.size} \x7d"

end Program

end VerdictMachine
