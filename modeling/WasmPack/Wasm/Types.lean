/-
  WasmPack.Wasm.Types

  The types a WebAssembly module declares: values, functions, memories, tables,
  globals and blocks.  All four number types are represented, so that every
  real module can be read; which of them can be compiled is decided later.
-/

namespace WasmPack.Wasm

/-! ## Value types -/

/-- The two widths a WebAssembly number can have. -/
inductive Width where
  | w32
  | w64
deriving DecidableEq, Inhabited

/-- A number type. -/
inductive ValueType where
  | i32
  | i64
  | f32
  | f64
deriving DecidableEq, Inhabited

namespace ValueType

/-- The integer type of a width. -/
def int : Width → ValueType
  | .w32 => .i32
  | .w64 => .i64

/-- The float type of a width. -/
def float : Width → ValueType
  | .w32 => .f32
  | .w64 => .f64

/-- The name of the type in the text format. -/
def name : ValueType → String
  | .i32 => "i32"
  | .i64 => "i64"
  | .f32 => "f32"
  | .f64 => "f64"

end ValueType

/-! ## Types of definitions -/

/-- What a function takes from the operand stack and what it leaves there. -/
structure FuncType where
  params : List ValueType
  results : List ValueType
deriving DecidableEq, Inhabited

/-- Size bounds of a memory in pages, or of a table in elements. -/
structure Limits where
  min : UInt32
  max : Option UInt32
deriving DecidableEq, Inhabited

/-- A table of function references. -/
structure TableType where
  limits : Limits
deriving DecidableEq, Inhabited

/-- The type of a global and whether it may be written. -/
structure GlobalType where
  valueType : ValueType
  isMutable : Bool
deriving DecidableEq, Inhabited

/-! ## Annotations on instructions -/

/-- The signature of a block: none, one result, or an entry of the type section. -/
inductive BlockType where
  | empty
  | value (type : ValueType)
  | func (typeIndex : UInt32)
deriving DecidableEq, Inhabited

/-- The alignment hint and the static offset of a memory access. -/
structure MemArg where
  align : UInt32
  offset : UInt32
deriving DecidableEq, Inhabited

end WasmPack.Wasm
