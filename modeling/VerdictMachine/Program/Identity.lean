import VerdictMachine.Digest.Keccak

/-!
# Program identity

A program is named by the digest of its contents. Both lengths are part of the
hashed bytes, so the boundary between code and constants cannot move.
-/

set_option autoImplicit false

namespace VerdictMachine

structure ProgramId where
  digest : Digest
  deriving DecidableEq

namespace ProgramId

def preimage (code constants : Bytes) : Bytes :=
  Bytes.ofText "verity:program" ++ Bytes.ofNatLE 4 code.length ++ code ++
    Bytes.ofNatLE 4 constants.length ++ constants

def ofContents (code constants : Bytes) : ProgramId := ⟨sha3 (preimage code constants)⟩

def bytes (id : ProgramId) : Bytes := id.digest.bytes

def hex (id : ProgramId) : String := id.bytes.hex

end ProgramId

end VerdictMachine
