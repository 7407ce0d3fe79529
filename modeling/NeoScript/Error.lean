import NeoScript.Bytes
import NeoScript.DebugInfo.Address
import NeoScript.Opcode

/-!
# Error — what can go wrong, and how it is told

Every failure of the library is a value of `Error` that holds its cause; the wording is in one
place, `Error.message`.  An error is a *format error* when the artifacts that were read are at fault
and not a revision of them.
-/

namespace NeoScript

/-! ## Causes -/

/-- Why an operand cannot be written behind its opcode. -/
inductive OperandFault where
  | unexpected (got : Nat)
  | wrongLength (expected got : Nat)
  | tooLong (length : Nat) (width : LengthWidth)
  deriving DecidableEq, Repr

inductive NefField where
  | compiler
  | source
  | tokenMethod
  deriving DecidableEq, Repr

/-- Why bytes are not a container, or a container cannot be written. -/
inductive NefFault where
  | badMagic (magic : Nat)
  | notUtf8 (field : NefField)
  | fieldTooLong (field : NefField) (length limit : Nat)
  | reservedByte
  | reservedField
  | tokenCount (count : Nat)
  | hiddenMethod (method : String)
  | badBoolean (byte : UInt8)
  | badCallFlags (byte : UInt8)
  | scriptLength (length : Nat)
  | trailingBytes (count : Nat)
  | unexpectedEnd (offset needed : Nat)
  | compilerTooLong (length : Nat)
  | sourceTooLong
  | tooManyTokens
  | methodTooLong (method : String)
  deriving DecidableEq, Repr

inductive DebugFault where
  | address (fault : AddressFault)
  | methodEnd (id : String) (address : Nat)
  | sequencePoint (point : SequencePoint) (id : String)
  | noEntries
  | notUtf8
  deriving DecidableEq, Repr

inductive JsonFault where
  /-- The text is not JSON. -/
  | malformed
  /-- The text ends inside a value. -/
  | unfinished
  /-- A value does not have the shape that its place asks for. -/
  | shape
  /-- An address text is wrong. -/
  | address (fault : AddressFault)
  deriving DecidableEq, Repr

inductive BlockFault where
  | notABlock (node : Nat)
  | emptyBlock (start : Nat)
  | noBlockAt (address : Nat)
  | distance (op : Opcode) (pc : Nat) (distance : Int)
  deriving DecidableEq, Repr

inductive MetricsFault where
  | noBlocks
  | danglingInstruction (id : Nat)
  deriving DecidableEq, Repr

inductive Error where
  | unknownOpcode (pc : Nat) (byte : UInt8)
  | truncatedOperand (pc : Nat) (op : Opcode) (needed remaining : Nat)
  | invalidOperand (pc : Nat) (op : Opcode) (fault : OperandFault)
  | invalidJumpTarget (pc : Nat) (op : Opcode) (target : Int)
  | invalidEntryPoint (pc : Nat)
  | invalidNef (fault : NefFault)
  | checksumMismatch (embedded computed : UInt32)
  | invalidDebugInfo (fault : DebugFault)
  | json (fault : JsonFault)
  | archive
  | io
  | danglingTarget (id : Nat)
  | missingAddressMapping (address : Nat)
  | invalidBlockStructure (fault : BlockFault)
  | metrics (fault : MetricsFault)
  deriving DecidableEq, Repr

/-! ## Wording -/

namespace OperandFault

def message : OperandFault → String
  | unexpected got => s!"expected no operand, got {got} bytes"
  | wrongLength expected got => s!"expected {expected} operand bytes, got {got}"
  | tooLong length width =>
      s!"{length} payload bytes exceed a {width.bytes}-byte length prefix"

end OperandFault

namespace NefField

def name : NefField → String
  | compiler => "compiler"
  | source => "source"
  | tokenMethod => "token method"

end NefField

namespace NefFault

def message : NefFault → String
  | badMagic magic => "bad magic 0x" ++ Bytes.paddedHex 8 magic
  | notUtf8 field => field.name ++ " is not valid UTF-8"
  | fieldTooLong field length limit => field.name ++ s!" is {length} bytes, limit is {limit}"
  | reservedByte => "reserved byte must be zero"
  | reservedField => "reserved field must be zero"
  | tokenCount count => s!"{count} method tokens exceed the limit of 128"
  | hiddenMethod method => s!"token method '{method}' must not start with '_'"
  | badBoolean byte => "invalid boolean 0x" ++ Bytes.toHex [byte] ++ " in method token"
  | badCallFlags byte => "invalid call flags 0x" ++ Bytes.toHex [byte]
  | scriptLength length => s!"script length {length} outside 1..=131070"
  | trailingBytes count => s!"{count} trailing bytes after checksum"
  | unexpectedEnd offset needed =>
      s!"unexpected end of file at offset {offset} (need {needed} bytes)"
  | compilerTooLong length => s!"compiler name is {length} bytes, limit is 64"
  | sourceTooLong => "source exceeds 256 bytes"
  | tooManyTokens => "too many method tokens"
  | methodTooLong method => s!"token method '{method}' exceeds 32 bytes"

end NefFault

namespace DebugFault

def message : DebugFault → String
  | address fault => fault.message
  | methodEnd id last => s!"method {id} ends at {last}, which is not an instruction"
  | sequencePoint point id =>
      "sequence point " ++ point.render ++ s!" of {id} is not an instruction"
  | noEntries => "archive contains no entries"
  | notUtf8 => "debug info is not UTF-8"

end DebugFault

namespace JsonFault

def message : JsonFault → String
  | malformed => "malformed text"
  | unfinished => "unexpected end of text"
  | shape => "unexpected shape"
  | address fault => "invalid debug info: " ++ fault.message

end JsonFault

namespace BlockFault

def message : BlockFault → String
  | notABlock node => s!"node {node} is not a body block"
  | emptyBlock start => s!"block at {start} is empty"
  | noBlockAt start => s!"target {start} does not start a block"
  | distance op pc offset => op.mnemonic ++ s!" at {pc} cannot encode distance {offset}"

end BlockFault

namespace MetricsFault

def message : MetricsFault → String
  | noBlocks => "no body blocks found"
  | danglingInstruction id => s!"block references unknown instruction #{id}"

end MetricsFault

namespace Error

def message : Error → String
  | unknownOpcode pc byte => "unknown opcode 0x" ++ Bytes.toHex [byte] ++ s!" at {pc}"
  | truncatedOperand pc op needed remaining =>
      op.mnemonic ++ s!" at {pc} needs {needed} operand bytes but only {remaining} remain"
  | invalidOperand pc op fault =>
      "invalid operand for " ++ op.mnemonic ++ s!" at {pc}: " ++ fault.message
  | invalidJumpTarget pc op target =>
      op.mnemonic ++ s!" at {pc} targets {target}, which is not an instruction boundary"
  | invalidEntryPoint pc => s!"entry point {pc} is not an instruction boundary"
  | invalidNef fault => "invalid NEF file: " ++ fault.message
  | checksumMismatch embedded computed =>
      "NEF checksum mismatch: embedded 0x" ++ Bytes.paddedHex 8 embedded.toNat ++
        ", computed 0x" ++ Bytes.paddedHex 8 computed.toNat
  | invalidDebugInfo fault => "invalid debug info: " ++ fault.message
  | json fault => "json error: " ++ fault.message
  | archive => "debug info archive error"
  | io => "io error"
  | danglingTarget id => s!"instruction #{id} is referenced but was removed from the program"
  | missingAddressMapping address => s!"no relocated address for old address {address}"
  | invalidBlockStructure fault => "invalid block structure: " ++ fault.message
  | metrics fault => "metrics computation failed: " ++ fault.message

/-- The artifacts that were read are at fault, not a revision of them. -/
def isFormat : Error → Bool
  | danglingTarget _ => false
  | missingAddressMapping _ => false
  | invalidBlockStructure _ => false
  | io => false
  | metrics _ => false
  | _ => true

end Error

end NeoScript
