/-
  WasmPack.Wasm.Instr

  Instructions.  Structured instructions own their bodies, so an expression is
  a tree and the nesting of control flow is the nesting of the data.
-/
import WasmPack.Wasm.Numeric

namespace WasmPack.Wasm

/-! ## Memory accesses -/

/-- Loads, by result type and by the part of memory that is read. -/
inductive LoadOp where
  | full (type : ValueType)
  | load8 (width : Width) (sign : Signedness)
  | load16 (width : Width) (sign : Signedness)
  | load32 (sign : Signedness)
deriving DecidableEq, Inhabited

namespace LoadOp

/-- The name of the load in the text format. -/
def mnemonic : LoadOp → String
  | full t => t.name ++ ".load"
  | load8 w s => "i" ++ w.digits ++ ".load8" ++ s.suffix
  | load16 w s => "i" ++ w.digits ++ ".load16" ++ s.suffix
  | load32 s => "i64.load32" ++ s.suffix

/-- Every load, in opcode order from `firstOpcode` on. -/
def all : Array LoadOp :=
  #[full .i32, full .i64, full .f32, full .f64,
    load8 .w32 .signed, load8 .w32 .unsigned, load16 .w32 .signed, load16 .w32 .unsigned,
    load8 .w64 .signed, load8 .w64 .unsigned, load16 .w64 .signed, load16 .w64 .unsigned,
    load32 .signed, load32 .unsigned]

/-- The opcode of `i32.load`. -/
def firstOpcode : Nat := 0x28

/-- The load with an opcode. -/
def ofOpcode? (opcode : UInt8) : Option LoadOp :=
  if firstOpcode ≤ opcode.toNat then all[opcode.toNat - firstOpcode]? else none

end LoadOp

/-- Stores, by operand type and by the part of memory that is written. -/
inductive StoreOp where
  | full (type : ValueType)
  | store8 (width : Width)
  | store16 (width : Width)
  | store32
deriving DecidableEq, Inhabited

namespace StoreOp

/-- The name of the store in the text format. -/
def mnemonic : StoreOp → String
  | full t => t.name ++ ".store"
  | store8 w => "i" ++ w.digits ++ ".store8"
  | store16 w => "i" ++ w.digits ++ ".store16"
  | store32 => "i64.store32"

/-- Every store, in opcode order from `firstOpcode` on. -/
def all : Array StoreOp :=
  #[full .i32, full .i64, full .f32, full .f64,
    store8 .w32, store16 .w32, store8 .w64, store16 .w64, store32]

/-- The opcode of `i32.store`. -/
def firstOpcode : Nat := 0x36

/-- The store with an opcode. -/
def ofOpcode? (opcode : UInt8) : Option StoreOp :=
  if firstOpcode ≤ opcode.toNat then all[opcode.toNat - firstOpcode]? else none

end StoreOp

/-! ## Instructions -/

/-- An instruction.  Float constants keep their bits and are never interpreted. -/
inductive Instr where
  | unreachable
  | nop
  | block (type : BlockType) (body : List Instr)
  | loop (type : BlockType) (body : List Instr)
  | ifElse (type : BlockType) (consequent alternative : List Instr)
  | br (label : UInt32)
  | brIf (label : UInt32)
  | brTable (labels : List UInt32) (default : UInt32)
  | ret
  | call (func : UInt32)
  | callIndirect (typeIndex table : UInt32)
  | drop
  | select
  | localGet (index : UInt32)
  | localSet (index : UInt32)
  | localTee (index : UInt32)
  | globalGet (index : UInt32)
  | globalSet (index : UInt32)
  | load (op : LoadOp) (arg : MemArg)
  | store (op : StoreOp) (arg : MemArg)
  | memorySize (memory : UInt32)
  | memoryGrow (memory : UInt32)
  | i32Const (value : Int32)
  | i64Const (value : Int64)
  | f32Const (bits : UInt32)
  | f64Const (bits : UInt64)
  | numeric (op : NumericOp)
deriving Inhabited

/-- An instruction sequence: a function body or a constant expression. -/
abbrev Expr := List Instr

/-- The name of the instruction in the text format. -/
def Instr.mnemonic : Instr → String
  | unreachable => "unreachable"
  | nop => "nop"
  | block .. => "block"
  | loop .. => "loop"
  | ifElse .. => "if"
  | br _ => "br"
  | brIf _ => "br_if"
  | brTable .. => "br_table"
  | ret => "return"
  | call _ => "call"
  | callIndirect .. => "call_indirect"
  | drop => "drop"
  | select => "select"
  | localGet _ => "local.get"
  | localSet _ => "local.set"
  | localTee _ => "local.tee"
  | globalGet _ => "global.get"
  | globalSet _ => "global.set"
  | load op _ => op.mnemonic
  | store op _ => op.mnemonic
  | memorySize _ => "memory.size"
  | memoryGrow _ => "memory.grow"
  | i32Const _ => "i32.const"
  | i64Const _ => "i64.const"
  | f32Const _ => "f32.const"
  | f64Const _ => "f64.const"
  | numeric op => op.mnemonic

/-- The deepest nesting of `block`, `loop` and `if` that is read or compiled. -/
def maxNesting : Nat := 512

end WasmPack.Wasm
