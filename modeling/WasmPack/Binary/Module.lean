/-
  WasmPack.Binary.Module

  Whole modules in binary form: the preamble, then the sections in the order of
  their numbers, each at most once, with custom sections anywhere between them.
-/
import WasmPack.Binary.Section

namespace WasmPack.Binary

open Wasm

/-- The bytes every module begins with. -/
def magic : List UInt8 := [0x00, 0x61, 0x73, 0x6D]

/-- The version of the format that is read. -/
def version : UInt32 := 1

/-- Read the magic bytes and the version. -/
def readPreamble : Decode Unit := do
  if (← readBytes 4) ≠ magic then failAt 0 .malformedMagic
  let found := UInt32.ofNat (littleEndian (← readBytes 4))
  if found ≠ version then failAt 4 (.unsupportedVersion found)

/-- Read a module. -/
def readModule : Decode Module := do
  readPreamble
  skipCustoms
  let types ← readSection 1 [] (readVec readFuncType)
  let imports ← readSection 2 [] (readVec readImport)
  let funcTypes ← readSection 3 [] (readVec readU32)
  let tables ← readSection 4 [] (readVec readTableType)
  let memories ← readSection 5 [] (readVec readLimits)
  let globals ← readSection 6 [] (readVec readGlobal)
  let exports ← readSection 7 [] (readVec readExport)
  let start ← readSection 8 none (some <$> readU32)
  let elems ← readSection 9 [] (readVec readElem)
  let codes ← readSection 10 [] (readVec readCode)
  let data ← readSection 11 [] (readVec readData)
  -- A section out of order is not recognised where it stands, so it is left over here.
  unless ← atEnd do fail .junkAfterSections
  if funcTypes.length ≠ codes.length then fail .lengthsDiffer
  let funcs := List.zipWith (fun type code => ⟨type, code.locals, code.body⟩) funcTypes codes
  return { types, imports, funcs, tables, memories, globals, exports, start, elems, data }

/-- The module that the bytes encode. -/
def decode (bytes : Array UInt8) : Except DecodeError Module :=
  match readModule { input := bytes } with
  | .ok m _ => .ok m
  | .error e _ => .error e

end WasmPack.Binary
