/-
  WasmPack.Compile.IndexSpaces

  What the indices of a module mean: its functions, memories and globals, with
  those it imports in front of those it defines.
-/
import WasmPack.Compile.Name
import WasmPack.Symbol
import WasmPack.Wasm.Module

namespace WasmPack.Compile

open Wasm

/-! ## Entries -/

/-- A function of the module. -/
inductive FuncEntry where
  | defined (type : FuncType) (locals : List ValueType) (body : Expr)
  | imported (type : FuncType) (source : ExternalId)
deriving Inhabited

/-- The type of a function. -/
def FuncEntry.type : FuncEntry → FuncType
  | defined type .. => type
  | imported type _ => type

/-- A memory of the module. -/
inductive MemoryEntry where
  | defined (limits : Limits)
  | imported (source : ExternalId)
deriving DecidableEq, Inhabited

/-- The most pages that limits allow. -/
def effectiveMax (limits : Limits) : UInt32 := limits.max.getD maxPages

/-- The most pages of a memory that the module defines. -/
def MemoryEntry.maxPages? : MemoryEntry → Option UInt32
  | defined limits => some (effectiveMax limits)
  | imported _ => none

/-- A global of the module. -/
inductive GlobalEntry where
  | defined (type : GlobalType) (init : Expr)
  | imported (type : GlobalType) (source : ExternalId)
deriving Inhabited

/-- The type of a global. -/
def GlobalEntry.type : GlobalEntry → GlobalType
  | defined type _ => type
  | imported type _ => type

/-- What the indices of a module mean. -/
structure IndexSpaces where
  types : Array FuncType := #[]
  funcs : Array FuncEntry := #[]
  memories : Array MemoryEntry := #[]
  globals : Array GlobalEntry := #[]
deriving Inhabited

/-! ## Look-ups -/

/-- The entry of an index space at an index. -/
def entryAt (kind : IndexKind) (entries : Array α) (index : UInt32) : Except CompileError α :=
  match entries[index.toNat]? with
  | some entry => return entry
  | none => throw (.invalidIndex kind index)

namespace IndexSpaces

/-- The function type at an index. -/
def typeAt (s : IndexSpaces) (index : UInt32) : Except CompileError FuncType :=
  entryAt .type s.types index

/-- The function at an index. -/
def funcAt (s : IndexSpaces) (index : UInt32) : Except CompileError FuncEntry :=
  entryAt .function s.funcs index

/-- The memory at an index. -/
def memoryAt (s : IndexSpaces) (index : UInt32) : Except CompileError MemoryEntry :=
  entryAt .memory s.memories index

/-- The global at an index. -/
def globalAt (s : IndexSpaces) (index : UInt32) : Except CompileError GlobalEntry :=
  entryAt .global s.globals index

end IndexSpaces

/-- How many values a construct takes from the operand stack and leaves on it. -/
structure Arity where
  params : UInt32
  results : UInt32
deriving DecidableEq, Inhabited

/-- The arity of a function type. -/
def arityOf (type : FuncType) : Arity :=
  ⟨UInt32.ofNat type.params.length, UInt32.ofNat type.results.length⟩

/-- The arity of a block. -/
def IndexSpaces.blockArity (s : IndexSpaces) : BlockType → Except CompileError Arity
  | .empty => return ⟨0, 0⟩
  | .value .i32 => return ⟨0, 1⟩
  | .value other => throw (.unsupportedType other .blockResult)
  | .func index => do return arityOf (← s.typeAt index)

/-! ## Construction -/

/-- Accept limits that the paging of memories can honour. -/
def checkLimits (limits : Limits) : Except CompileError Unit :=
  let max := effectiveMax limits
  if maxPages < max then throw (.limitExceeded (.pages max))
  else if max < limits.min then throw (.limitExceeded (.minimum limits.min max))
  else return ()

namespace IndexSpaces

/-- Add what an import provides. -/
def addImport (s : IndexSpaces) (i : Import) : Except CompileError IndexSpaces := do
  checkNamespace i.origin
  checkName .imported i.member
  let source : ExternalId := ⟨i.origin, i.member⟩
  match i.desc with
  | .func index =>
    let type ← s.typeAt index
    return { s with funcs := s.funcs.push (.imported type source) }
  | .memory limits =>
    checkLimits limits
    return { s with memories := s.memories.push (.imported source) }
  | .global type => return { s with globals := s.globals.push (.imported type source) }
  | .table _ => throw (.unsupported (.tableImport i.origin i.member))

/-- Add a function that the module defines. -/
def addFunc (s : IndexSpaces) (f : Func) : Except CompileError IndexSpaces := do
  let type ← s.typeAt f.typeIndex
  return { s with funcs := s.funcs.push (.defined type f.locals f.body) }

/-- Add a memory that the module defines. -/
def addMemory (s : IndexSpaces) (limits : Limits) : Except CompileError IndexSpaces := do
  checkLimits limits
  return { s with memories := s.memories.push (.defined limits) }

/-- Add a global that the module defines. -/
def addGlobal (s : IndexSpaces) (g : Global) : IndexSpaces :=
  { s with globals := s.globals.push (.defined g.type g.init) }

/-- Accept an export whose name can be one of a sequence and whose index means something. -/
def checkExport (s : IndexSpaces) (e : Export) : Except CompileError Unit := do
  checkName .exported e.name
  match e.kind with
  | .func => discard (s.funcAt e.index)
  | .memory => discard (s.memoryAt e.index)
  | .global => discard (s.globalAt e.index)
  | .table => throw (.unsupported (.tableExport e.name))

/-- The index spaces of a module whose imports, definitions and exports are in order. -/
def ofModule (m : Module) : Except CompileError IndexSpaces := do
  let s ← m.imports.foldlM addImport { types := m.types.toArray }
  let s ← m.funcs.foldlM addFunc s
  let s ← m.memories.foldlM addMemory s
  let s := m.globals.foldl addGlobal s
  m.exports.forM s.checkExport
  return s

end IndexSpaces

end WasmPack.Compile
