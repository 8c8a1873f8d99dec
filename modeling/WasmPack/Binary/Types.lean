/-
  WasmPack.Binary.Types

  Value types, block types and the types of definitions in binary form.
-/
import WasmPack.Binary.Vector

namespace WasmPack.Binary

open Wasm

/-- The value type with a tag, read as a signed number. -/
def valueType? (tag : Int) : Option ValueType :=
  if tag = -1 then some .i32
  else if tag = -2 then some .i64
  else if tag = -3 then some .f32
  else if tag = -4 then some .f64
  else none

/-- The tag of an empty block type. -/
def emptyTag : Int := -0x40

/-- The tag in front of a function type. -/
def funcTag : Int := -0x20

/-- The tag of the element type of a table. -/
def funcRefTag : Int := -0x10

/-- Read a value type. -/
def readValueType : Decode ValueType := do
  let start ← offset
  match valueType? (← readS7) with
  | some t => return t
  | none => failAt start .malformedValueType

/-- Read a block type: a tag, or the index of a function type as a nonnegative number. -/
def readBlockType : Decode BlockType := do
  let start ← offset
  let raw ← readS33
  if raw = emptyTag then return .empty
  match valueType? raw with
  | some t => return .value t
  | none =>
    if raw < 0 then failAt start .negativeTypeIndex
    else if raw < capacity 32 then return .func (UInt32.ofNat raw.toNat)
    else failAt start .integerTooLarge

/-- Read a function type. -/
def readFuncType : Decode FuncType := do
  let start ← offset
  if (← readS7) ≠ funcTag then failAt start .malformedFuncType
  let params ← readVec readValueType
  let results ← readVec readValueType
  return ⟨params, results⟩

/-- Read the bounds of a memory or a table, behind a flag that tells whether there is an upper
    one. -/
def readLimits : Decode Limits := do
  let start ← offset
  match ← readByte with
  | 0 => return ⟨← readU32, none⟩
  | 1 => do
    let min ← readU32
    let max ← readU32
    return ⟨min, some max⟩
  | _ => failAt start .malformedLimits

/-- Read a table type. -/
def readTableType : Decode TableType := do
  let start ← offset
  if (← readS7) ≠ funcRefTag then failAt start .malformedElemType
  return ⟨← readLimits⟩

/-- Read a global type. -/
def readGlobalType : Decode GlobalType := do
  let valueType ← readValueType
  let start ← offset
  match ← readByte with
  | 0 => return ⟨valueType, false⟩
  | 1 => return ⟨valueType, true⟩
  | _ => failAt start .malformedGlobalType

theorem keeps_readBlockType : Keeps readBlockType :=
  keeps_bind keeps_offset fun _ => keeps_bind (keeps_readSigned 33) fun _ => by
    split
    · exact keeps_pure _
    · split
      · exact keeps_pure _
      · split
        · exact (advances_failAt _ _).keeps
        · split
          · exact keeps_pure _
          · exact (advances_failAt _ _).keeps

end WasmPack.Binary
