/-
  WasmPack.Binary.Error

  Why a binary module cannot be read, and where.
-/
import WasmPack.Text.Quoted

namespace WasmPack.Binary

/-- What is wrong with the bytes. -/
inductive Cause where
  | unexpectedEnd
  | integerTooLong
  | integerTooLarge
  | malformedUtf8
  | malformedMagic
  | unsupportedVersion (version : UInt32)
  | customNameTooLong
  | sizeMismatch
  | junkAfterSections
  | lengthsDiffer
  | malformedValueType
  | malformedFuncType
  | malformedLimits
  | malformedElemType
  | malformedGlobalType
  | malformedImport
  | malformedExport
  | tooManyLocals
  | unknownOpcode (opcode : UInt8)
  /-- A number behind the 0xFC prefix byte that names no operator. -/
  | unknownSaturating (sub : UInt32)
  | endExpected
  | elseOrEndExpected
  | negativeTypeIndex
  | nestingTooDeep
deriving DecidableEq, Inhabited

/-- The cause in words. -/
def Cause.message : Cause → String
  | unexpectedEnd => "unexpected end of input"
  | integerTooLong => "integer representation too long"
  | integerTooLarge => "integer too large"
  | malformedUtf8 => "malformed UTF-8 encoding"
  | malformedMagic => "malformed magic header"
  | unsupportedVersion v => "unsupported version " ++ toString v.toNat
  | customNameTooLong => "name of custom section too long"
  | sizeMismatch => "size mismatch"
  | junkAfterSections => "junk after last section"
  | lengthsDiffer => "function and code sections have inconsistent lengths"
  | malformedValueType => "malformed value type"
  | malformedFuncType => "malformed function type"
  | malformedLimits => "malformed limits"
  | malformedElemType => "malformed element type"
  | malformedGlobalType => "malformed global type"
  | malformedImport => "malformed import descriptor"
  | malformedExport => "malformed export descriptor"
  | tooManyLocals => "too many locals"
  | unknownOpcode b => "unknown opcode 0x" ++ Text.hex 2 b.toNat
  | unknownSaturating n => "unknown opcode 0xfc 0x" ++ Text.hex 2 n.toNat
  | endExpected => "end opcode expected"
  | elseOrEndExpected => "else or end opcode expected"
  | negativeTypeIndex => "nonnegative type index expected"
  | nestingTooDeep => "nesting too deep"

/-- A cause and the offset of the byte it was found at. -/
structure DecodeError where
  offset : Nat
  cause : Cause
deriving DecidableEq, Inhabited

/-- A complaint about the byte at an offset, in full. -/
def complaint (offset : Nat) (message : String) : String :=
  "decode error at offset " ++ toString offset ++ ": " ++ message

/-- The error in full. -/
def DecodeError.message (e : DecodeError) : String := complaint e.offset e.cause.message

end WasmPack.Binary
