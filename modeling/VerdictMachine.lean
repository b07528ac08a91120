import VerdictMachine.Bank
import VerdictMachine.Bytes
import VerdictMachine.Digest.Keccak
import VerdictMachine.Digest.Merkle
import VerdictMachine.Digest.Sha256
import VerdictMachine.Fault
import VerdictMachine.Floating.Arith
import VerdictMachine.Floating.Format
import VerdictMachine.Floating.Host
import VerdictMachine.Floating.Rounding
import VerdictMachine.Instruction.Basic
import VerdictMachine.Instruction.Cost
import VerdictMachine.Instruction.Decoding
import VerdictMachine.Instruction.Encoding
import VerdictMachine.Machine.Basic
import VerdictMachine.Machine.CallStack
import VerdictMachine.Machine.Control
import VerdictMachine.Machine.Execute
import VerdictMachine.Machine.Execute.Crypto
import VerdictMachine.Machine.Execute.Data
import VerdictMachine.Machine.Execute.Integer
import VerdictMachine.Machine.Execute.Transfer
import VerdictMachine.Machine.Memory
import VerdictMachine.Machine.Registers
import VerdictMachine.Machine.Run
import VerdictMachine.Machine.Step
import VerdictMachine.Machine.Verdict
import VerdictMachine.Opcode
import VerdictMachine.Program.Basic
import VerdictMachine.Program.Identity
import VerdictMachine.Program.Library
import VerdictMachine.Proofs.Accounts
import VerdictMachine.Proofs.CallDiscipline
import VerdictMachine.Proofs.Codec
import VerdictMachine.Proofs.ControlFlow
import VerdictMachine.Proofs.Course
import VerdictMachine.Proofs.Frames
import VerdictMachine.Proofs.Language
import VerdictMachine.Proofs.Limit
import VerdictMachine.Proofs.Metering
import VerdictMachine.Proofs.Operands
import VerdictMachine.Proofs.Progress
import VerdictMachine.Proofs.Spelling
import VerdictMachine.Proofs.Stepping
import VerdictMachine.Proofs.Sweep
import VerdictMachine.Proofs.Termination
import VerdictMachine.Segment
import VerdictMachine.Signature.Curve
import VerdictMachine.Signature.Ecdsa
import VerdictMachine.Signature.Schnorr
import VerdictMachine.Word.Arith
import VerdictMachine.Word.Basic
import VerdictMachine.Word.Limbs
import VerdictMachine.Word.Shift
import VerdictMachine.Proofs.Footprint
import VerdictMachine.Proofs.FrameList
import VerdictMachine.Proofs.Causes
import VerdictMachine.Proofs.Binding
import VerdictMachine.Proofs.Denotation
import VerdictMachine.Proofs.Failures
import VerdictMachine.Proofs.Consistency
import VerdictMachine.Proofs.Likeness
import VerdictMachine.Proofs.WriteOnly
import VerdictMachine.Proofs.Reconstruction
import VerdictMachine.Proofs.Capacity
import VerdictMachine.Proofs.LimbValue
import VerdictMachine.Proofs.VerdictImage
import VerdictMachine.Proofs.WordValue
import VerdictMachine.Proofs.Multiplication
import VerdictMachine.Proofs.Division
import VerdictMachine.Proofs.Addition
import VerdictMachine.Proofs.Shifting
import VerdictMachine.Proofs.Conversion
import VerdictMachine.Proofs.CheckedArithmetic
import VerdictMachine.Proofs.Inclusion
import VerdictMachine.Proofs.WriteHistory
import VerdictMachine.Proofs.Representation
import VerdictMachine.Proofs.NearestEven
import VerdictMachine.Proofs.DoubleRounding
import VerdictMachine.Proofs.HalfPrecision
import VerdictMachine.Proofs.Identity
import VerdictMachine.Proofs.IndexBits
import VerdictMachine.Proofs.Buffer
