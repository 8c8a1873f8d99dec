/-
  WasmPack.Proofs.Grammar.Instr

  The binary grammar of integers, vectors, names and types, and of instructions
  and expressions.

  A production relates words of bytes to the values they spell.  It says nothing
  about reading: a word is given as a whole, and several words may spell the
  same value.

  The opcodes are written from the side of the instructions, one rule for each
  form.  A structured instruction counts the structured instructions around it,
  so the bound on nesting is part of the grammar.
-/
import Mathlib.Data.Nat.Digits.Defs
import WasmPack.Wasm.Module

namespace WasmPack.Grammar

open Wasm

/-- Which words spell which values. -/
abbrev Production (α : Type) := List UInt8 → α → Prop

/-! ## Integers -/

/-- Groups of seven bits, one a byte: the high bit says that another group follows. -/
inductive Groups : List UInt8 → Prop where
  | last {b : UInt8} (h : b.toNat < 128) : Groups [b]
  | more {b : UInt8} {w : List UInt8} (h : 128 ≤ b.toNat) (rest : Groups w) : Groups (b :: w)

/-- The number that groups spell, lowest group first. -/
def magnitude (w : List UInt8) : Nat := Nat.ofDigits 128 (w.map fun b => b.toNat % 128)

/-- Whether the last group has its highest bit set, which is the sign of a signed number. -/
def isNegative (w : List UInt8) : Bool := w.getLast?.any fun b => 64 ≤ b.toNat % 128

/-- The number that groups spell in two's complement. -/
def signedValue (w : List UInt8) : Int :=
  if isNegative w then (magnitude w : Int) - 2 ^ (7 * w.length) else magnitude w

/-- The most groups that an integer of a number of bits may have. -/
def groupLimit (bits : Nat) : Nat := (bits + 6) / 7

/-- An unsigned integer of a number of bits. -/
def Unsigned (bits : Nat) : Production Nat := fun w n =>
  Groups w ∧ w.length ≤ groupLimit bits ∧ magnitude w = n ∧ n < 2 ^ bits

/-- A signed integer of a number of bits. -/
def Signed (bits : Nat) : Production Int := fun w n =>
  Groups w ∧ w.length ≤ groupLimit bits ∧ signedValue w = n ∧
    -2 ^ (bits - 1) ≤ n ∧ n < 2 ^ (bits - 1)

/-- An index, a count or a size. -/
def U32 : Production UInt32 := fun w n => Unsigned 32 w n.toNat

/-- A type tag. -/
def S7 : Production Int := Signed 7

/-- A 32-bit constant. -/
def S32 : Production Int32 := fun w n => Signed 32 w n.toInt

/-- A block type. -/
def S33 : Production Int := Signed 33

/-- A 64-bit constant. -/
def S64 : Production Int64 := fun w n => Signed 64 w n.toInt

/-! ## Data with a length -/

/-- Items in a row. -/
inductive Items {α : Type} (item : Production α) : Production (List α) where
  | nil : Items item [] []
  | cons {u v : List UInt8} {a : α} {as : List α} (head : item u a) (tail : Items item v as) :
      Items item (u ++ v) (a :: as)

/-- A count and that many items. -/
def Vec {α : Type} (item : Production α) : Production (List α) := fun w as =>
  ∃ u v n, w = u ++ v ∧ U32 u n ∧ Items item v as ∧ n.toNat = as.length

/-- A word with its length in front. -/
def Prefixed {α : Type} (contents : Production α) : Production α := fun w a =>
  ∃ u v n, w = u ++ v ∧ U32 u n ∧ contents v a ∧ n.toNat = v.length

/-- A text in UTF-8. -/
def Utf8 : Production String := fun w s => w = s.toUTF8.data.toList

/-- A name. -/
def Name : Production String := Prefixed Utf8

/-! ## Types -/

/-- The tag of a value type. -/
def valueTag : ValueType → Int
  | .i32 => -1
  | .i64 => -2
  | .f32 => -3
  | .f64 => -4

/-- A value type. -/
def ValueTypeForm : Production ValueType := fun w t => S7 w (valueTag t)

/-- The type of a block: no result, one, or an entry of the type section. -/
inductive BlockTypeForm : Production BlockType where
  | empty {w : List UInt8} (h : S33 w (-0x40)) : BlockTypeForm w .empty
  | value {w : List UInt8} {t : ValueType} (h : S33 w (valueTag t)) : BlockTypeForm w (.value t)
  | func {w : List UInt8} {i : UInt32} (h : S33 w i.toNat) : BlockTypeForm w (.func i)

/-- A function type. -/
inductive FuncTypeForm : Production FuncType where
  | mk {t u v : List UInt8} {params results : List ValueType} (tag : S7 t (-0x20))
      (hp : Vec ValueTypeForm u params) (hr : Vec ValueTypeForm v results) :
      FuncTypeForm (t ++ u ++ v) ⟨params, results⟩

/-- The bounds of a memory or a table. -/
inductive LimitsForm : Production Limits where
  | open {u : List UInt8} {min : UInt32} (hmin : U32 u min) : LimitsForm (0x00 :: u) ⟨min, none⟩
  | closed {u v : List UInt8} {min max : UInt32} (hmin : U32 u min) (hmax : U32 v max) :
      LimitsForm (0x01 :: (u ++ v)) ⟨min, some max⟩

/-- A table type. -/
inductive TableTypeForm : Production TableType where
  | mk {t u : List UInt8} {limits : Limits} (tag : S7 t (-0x10)) (h : LimitsForm u limits) :
      TableTypeForm (t ++ u) ⟨limits⟩

/-- A global type. -/
inductive GlobalTypeForm : Production GlobalType where
  | const {t : List UInt8} {type : ValueType} (h : ValueTypeForm t type) :
      GlobalTypeForm (t ++ [0x00]) ⟨type, false⟩
  | var {t : List UInt8} {type : ValueType} (h : ValueTypeForm t type) :
      GlobalTypeForm (t ++ [0x01]) ⟨type, true⟩

/-! ## Opcodes -/

/-- The place of a comparison among those of its type. -/
def relCode : IntRel → Nat
  | .eq => 0
  | .ne => 1
  | .lt .signed => 2
  | .lt .unsigned => 3
  | .gt .signed => 4
  | .gt .unsigned => 5
  | .le .signed => 6
  | .le .unsigned => 7
  | .ge .signed => 8
  | .ge .unsigned => 9

/-- The place of a comparison among those of its type. -/
def floatRelCode : FloatRel → Nat
  | .eq => 0
  | .ne => 1
  | .lt => 2
  | .gt => 3
  | .le => 4
  | .ge => 5

/-- The place of an operator among those of its type. -/
def intUnaryCode : IntUnary → Nat
  | .clz => 0
  | .ctz => 1
  | .popcnt => 2

/-- The place of an operator among those of its type. -/
def intBinaryCode : IntBinary → Nat
  | .add => 0
  | .sub => 1
  | .mul => 2
  | .div .signed => 3
  | .div .unsigned => 4
  | .rem .signed => 5
  | .rem .unsigned => 6
  | .and => 7
  | .or => 8
  | .xor => 9
  | .shl => 10
  | .shr .signed => 11
  | .shr .unsigned => 12
  | .rotl => 13
  | .rotr => 14

/-- The place of an operator among those of its type. -/
def floatUnaryCode : FloatUnary → Nat
  | .abs => 0
  | .neg => 1
  | .ceil => 2
  | .floor => 3
  | .trunc => 4
  | .nearest => 5
  | .sqrt => 6

/-- The place of an operator among those of its type. -/
def floatBinaryCode : FloatBinary → Nat
  | .add => 0
  | .sub => 1
  | .mul => 2
  | .div => 3
  | .min => 4
  | .max => 5
  | .copysign => 6

/-- The place of an operator among the two that differ in signedness. -/
def signCode : Signedness → Nat
  | .signed => 0
  | .unsigned => 1

/-- The opcode of a numeric operator that has one of a single byte. -/
def numericCode : NumericOp → Option Nat
  | .eqz .w32 => some 0x45
  | .eqz .w64 => some 0x50
  | .intRel .w32 r => some (0x46 + relCode r)
  | .intRel .w64 r => some (0x51 + relCode r)
  | .floatRel .w32 r => some (0x5B + floatRelCode r)
  | .floatRel .w64 r => some (0x61 + floatRelCode r)
  | .intUnary .w32 o => some (0x67 + intUnaryCode o)
  | .intBinary .w32 o => some (0x6A + intBinaryCode o)
  | .intUnary .w64 o => some (0x79 + intUnaryCode o)
  | .intBinary .w64 o => some (0x7C + intBinaryCode o)
  | .floatUnary .w32 o => some (0x8B + floatUnaryCode o)
  | .floatBinary .w32 o => some (0x92 + floatBinaryCode o)
  | .floatUnary .w64 o => some (0x99 + floatUnaryCode o)
  | .floatBinary .w64 o => some (0xA0 + floatBinaryCode o)
  | .wrap => some 0xA7
  | .trunc .w32 .w32 s => some (0xA8 + signCode s)
  | .trunc .w32 .w64 s => some (0xAA + signCode s)
  | .widen s => some (0xAC + signCode s)
  | .trunc .w64 .w32 s => some (0xAE + signCode s)
  | .trunc .w64 .w64 s => some (0xB0 + signCode s)
  | .convert .w32 .w32 s => some (0xB2 + signCode s)
  | .convert .w32 .w64 s => some (0xB4 + signCode s)
  | .demote => some 0xB6
  | .convert .w64 .w32 s => some (0xB7 + signCode s)
  | .convert .w64 .w64 s => some (0xB9 + signCode s)
  | .promote => some 0xBB
  | .floatBits .w32 => some 0xBC
  | .floatBits .w64 => some 0xBD
  | .floatOfBits .w32 => some 0xBE
  | .floatOfBits .w64 => some 0xBF
  | .extend8 .w32 => some 0xC0
  | .extend16 .w32 => some 0xC1
  | .extend8 .w64 => some 0xC2
  | .extend16 .w64 => some 0xC3
  | .extend32 => some 0xC4
  | .truncSat .. => none

/-- The number behind the 0xFC prefix byte of a numeric operator that has one. -/
def saturatingCode : NumericOp → Option Nat
  | .truncSat .w32 .w32 s => some (0 + signCode s)
  | .truncSat .w32 .w64 s => some (2 + signCode s)
  | .truncSat .w64 .w32 s => some (4 + signCode s)
  | .truncSat .w64 .w64 s => some (6 + signCode s)
  | _ => none

/-- The opcode of a load. -/
def loadCode : LoadOp → Nat
  | .full .i32 => 0x28
  | .full .i64 => 0x29
  | .full .f32 => 0x2A
  | .full .f64 => 0x2B
  | .load8 .w32 s => 0x2C + signCode s
  | .load16 .w32 s => 0x2E + signCode s
  | .load8 .w64 s => 0x30 + signCode s
  | .load16 .w64 s => 0x32 + signCode s
  | .load32 s => 0x34 + signCode s

/-- The opcode of a store. -/
def storeCode : StoreOp → Nat
  | .full .i32 => 0x36
  | .full .i64 => 0x37
  | .full .f32 => 0x38
  | .full .f64 => 0x39
  | .store8 .w32 => 0x3A
  | .store16 .w32 => 0x3B
  | .store8 .w64 => 0x3C
  | .store16 .w64 => 0x3D
  | .store32 => 0x3E

/-! ## Plain instructions -/

/-- The alignment and the offset of a memory access. -/
inductive MemArgForm : Production MemArg where
  | mk {u v : List UInt8} {align offset : UInt32} (ha : U32 u align) (ho : U32 v offset) :
      MemArgForm (u ++ v) ⟨align, offset⟩

/-- The number that bytes spell, lowest byte first. -/
def fixedValue (w : List UInt8) : Nat := Nat.ofDigits 256 (w.map UInt8.toNat)

/-- An instruction without a body. -/
inductive PlainForm : Production Instr where
  | unreachable : PlainForm [0x00] .unreachable
  | nop : PlainForm [0x01] .nop
  | br {w : List UInt8} {l : UInt32} (h : U32 w l) : PlainForm (0x0C :: w) (.br l)
  | brIf {w : List UInt8} {l : UInt32} (h : U32 w l) : PlainForm (0x0D :: w) (.brIf l)
  | brTable {u v : List UInt8} {labels : List UInt32} {default : UInt32} (hl : Vec U32 u labels)
      (hd : U32 v default) : PlainForm (0x0E :: (u ++ v)) (.brTable labels default)
  | ret : PlainForm [0x0F] .ret
  | call {w : List UInt8} {i : UInt32} (h : U32 w i) : PlainForm (0x10 :: w) (.call i)
  | callIndirect {u v : List UInt8} {typeIndex table : UInt32} (hi : U32 u typeIndex)
      (ht : U32 v table) : PlainForm (0x11 :: (u ++ v)) (.callIndirect typeIndex table)
  | drop : PlainForm [0x1A] .drop
  | select : PlainForm [0x1B] .select
  | localGet {w : List UInt8} {i : UInt32} (h : U32 w i) : PlainForm (0x20 :: w) (.localGet i)
  | localSet {w : List UInt8} {i : UInt32} (h : U32 w i) : PlainForm (0x21 :: w) (.localSet i)
  | localTee {w : List UInt8} {i : UInt32} (h : U32 w i) : PlainForm (0x22 :: w) (.localTee i)
  | globalGet {w : List UInt8} {i : UInt32} (h : U32 w i) : PlainForm (0x23 :: w) (.globalGet i)
  | globalSet {w : List UInt8} {i : UInt32} (h : U32 w i) : PlainForm (0x24 :: w) (.globalSet i)
  | load {b : UInt8} {w : List UInt8} {op : LoadOp} {arg : MemArg} (hb : loadCode op = b.toNat)
      (h : MemArgForm w arg) : PlainForm (b :: w) (.load op arg)
  | store {b : UInt8} {w : List UInt8} {op : StoreOp} {arg : MemArg} (hb : storeCode op = b.toNat)
      (h : MemArgForm w arg) : PlainForm (b :: w) (.store op arg)
  | memorySize {w : List UInt8} {i : UInt32} (h : U32 w i) : PlainForm (0x3F :: w) (.memorySize i)
  | memoryGrow {w : List UInt8} {i : UInt32} (h : U32 w i) : PlainForm (0x40 :: w) (.memoryGrow i)
  | i32Const {w : List UInt8} {n : Int32} (h : S32 w n) : PlainForm (0x41 :: w) (.i32Const n)
  | i64Const {w : List UInt8} {n : Int64} (h : S64 w n) : PlainForm (0x42 :: w) (.i64Const n)
  | f32Const {w : List UInt8} {n : UInt32} (hl : w.length = 4) (h : fixedValue w = n.toNat) :
      PlainForm (0x43 :: w) (.f32Const n)
  | f64Const {w : List UInt8} {n : UInt64} (hl : w.length = 8) (h : fixedValue w = n.toNat) :
      PlainForm (0x44 :: w) (.f64Const n)
  | numeric {b : UInt8} {op : NumericOp} (hb : numericCode op = some b.toNat) :
      PlainForm [b] (.numeric op)
  | saturating {w : List UInt8} {op : NumericOp} {n : UInt32}
      (hn : saturatingCode op = some n.toNat) (h : U32 w n) : PlainForm (0xFC :: w) (.numeric op)

/-! ## Structured instructions -/

mutual

/-- An instruction inside `depth` structured instructions. -/
inductive InstrForm : Nat → List UInt8 → Instr → Prop where
  | plain {depth : Nat} {w : List UInt8} {i : Instr} (h : PlainForm w i) : InstrForm depth w i
  | block {depth : Nat} {t u : List UInt8} {type : BlockType} {body : Expr}
      (hd : depth < 512) (ht : BlockTypeForm t type) (hb : BodyForm (depth + 1) u body) :
      InstrForm depth (0x02 :: (t ++ (u ++ [0x0B]))) (.block type body)
  | loop {depth : Nat} {t u : List UInt8} {type : BlockType} {body : Expr}
      (hd : depth < 512) (ht : BlockTypeForm t type) (hb : BodyForm (depth + 1) u body) :
      InstrForm depth (0x03 :: (t ++ (u ++ [0x0B]))) (.loop type body)
  /-- Without an `else` the second arm is empty. -/
  | ifThen {depth : Nat} {t u : List UInt8} {type : BlockType} {first : Expr}
      (hd : depth < 512) (ht : BlockTypeForm t type) (hf : BodyForm (depth + 1) u first) :
      InstrForm depth (0x04 :: (t ++ (u ++ [0x0B]))) (.ifElse type first [])
  | ifElse {depth : Nat} {t u v : List UInt8} {type : BlockType} {first second : Expr}
      (hd : depth < 512) (ht : BlockTypeForm t type) (hf : BodyForm (depth + 1) u first)
      (hs : BodyForm (depth + 1) v second) :
      InstrForm depth (0x04 :: (t ++ (u ++ 0x05 :: (v ++ [0x0B])))) (.ifElse type first second)

/-- The instructions of a body inside `depth` structured instructions. -/
inductive BodyForm : Nat → List UInt8 → Expr → Prop where
  | nil {depth : Nat} : BodyForm depth [] []
  | cons {depth : Nat} {u v : List UInt8} {i : Instr} {rest : Expr} (head : InstrForm depth u i)
      (tail : BodyForm depth v rest) : BodyForm depth (u ++ v) (i :: rest)

end

/-- An expression: its instructions and an `end`. -/
def ExprForm (depth : Nat) : Production Expr := fun w body =>
  ∃ u, w = u ++ [0x0B] ∧ BodyForm depth u body

end WasmPack.Grammar
