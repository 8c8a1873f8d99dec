/-
  WasmPack.Wasm.Module

  A module as its binary form lists it: section by section, imports apart from
  definitions, indices unchecked.
-/
import WasmPack.Wasm.Instr

namespace WasmPack.Wasm

/-- What an import provides. -/
inductive ImportDesc where
  | func (typeIndex : UInt32)
  | table (type : TableType)
  | memory (limits : Limits)
  | global (type : GlobalType)
deriving DecidableEq, Inhabited

/-- An import: the module it comes from, its name there, and what it is. -/
structure Import where
  origin : String
  member : String
  desc : ImportDesc
deriving DecidableEq, Inhabited

/-- The index spaces an export can point into. -/
inductive ExportKind where
  | func
  | table
  | memory
  | global
deriving DecidableEq, Inhabited

/-- An export: a name for an entry of an index space. -/
structure Export where
  name : String
  kind : ExportKind
  index : UInt32
deriving DecidableEq, Inhabited

/-- A function definition. -/
structure Func where
  typeIndex : UInt32
  locals : List ValueType
  body : Expr
deriving Inhabited

/-- A global definition with its initial value. -/
structure Global where
  type : GlobalType
  init : Expr
deriving Inhabited

/-- An element segment: function indices for a table, from an offset on. -/
structure Elem where
  table : UInt32
  offset : Expr
  init : List UInt32
deriving Inhabited

/-- A data segment: bytes for a memory, from an offset on. -/
structure Data where
  memory : UInt32
  offset : Expr
  init : List UInt8
deriving Inhabited

/-- A WebAssembly module. -/
structure Module where
  types : List FuncType := []
  imports : List Import := []
  funcs : List Func := []
  tables : List TableType := []
  memories : List Limits := []
  globals : List Global := []
  exports : List Export := []
  start : Option UInt32 := none
  elems : List Elem := []
  data : List Data := []
deriving Inhabited

end WasmPack.Wasm
