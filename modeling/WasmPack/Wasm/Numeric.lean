/-
  WasmPack.Wasm.Numeric

  The numeric operators of WebAssembly with their opcodes and text names.

  An operator is described by its shape (test, comparison, unary, binary or
  conversion), so that a statement about all 32-bit comparisons is a statement
  about one constructor.  The single-byte opcodes run without a gap from 0x45
  to 0xC4, and `plain` lists the operators in exactly that order.
-/
import WasmPack.Wasm.Types

namespace WasmPack.Wasm

/-! ## Operators -/

/-- How an integer operator reads its operands. -/
inductive Signedness where
  | signed
  | unsigned
deriving DecidableEq, Inhabited

/-- Comparisons of integers. -/
inductive IntRel where
  | eq
  | ne
  | lt (sign : Signedness)
  | gt (sign : Signedness)
  | le (sign : Signedness)
  | ge (sign : Signedness)
deriving DecidableEq, Inhabited

/-- Comparisons of floats. -/
inductive FloatRel where
  | eq
  | ne
  | lt
  | gt
  | le
  | ge
deriving DecidableEq, Inhabited

/-- Bit counts. -/
inductive IntUnary where
  | clz
  | ctz
  | popcnt
deriving DecidableEq, Inhabited

/-- Integer arithmetic, bitwise operators, shifts and rotates. -/
inductive IntBinary where
  | add
  | sub
  | mul
  | div (sign : Signedness)
  | rem (sign : Signedness)
  | and
  | or
  | xor
  | shl
  | shr (sign : Signedness)
  | rotl
  | rotr
deriving DecidableEq, Inhabited

/-- Float operators of one operand. -/
inductive FloatUnary where
  | abs
  | neg
  | ceil
  | floor
  | trunc
  | nearest
  | sqrt
deriving DecidableEq, Inhabited

/-- Float operators of two operands. -/
inductive FloatBinary where
  | add
  | sub
  | mul
  | div
  | min
  | max
  | copysign
deriving DecidableEq, Inhabited

/-- A numeric operator. -/
inductive NumericOp where
  | eqz (width : Width)
  | intRel (width : Width) (rel : IntRel)
  | floatRel (width : Width) (rel : FloatRel)
  | intUnary (width : Width) (op : IntUnary)
  | intBinary (width : Width) (op : IntBinary)
  | floatUnary (width : Width) (op : FloatUnary)
  | floatBinary (width : Width) (op : FloatBinary)
  /-- The low half of a 64-bit integer. -/
  | wrap
  /-- A float rounded toward zero to an integer. -/
  | trunc (target source : Width) (sign : Signedness)
  /-- As `trunc`, with results out of range clamped. -/
  | truncSat (target source : Width) (sign : Signedness)
  /-- A 32-bit integer widened to 64 bits. -/
  | widen (sign : Signedness)
  /-- An integer rounded to a float. -/
  | convert (target source : Width) (sign : Signedness)
  | demote
  | promote
  /-- The bits of a float as an integer. -/
  | floatBits (width : Width)
  /-- The float with the given bits. -/
  | floatOfBits (width : Width)
  | extend8 (width : Width)
  | extend16 (width : Width)
  /-- The low half of a 64-bit integer, sign-extended. -/
  | extend32
deriving DecidableEq, Inhabited

/-! ## Text names -/

/-- The text of a width, as it stands in type names. -/
def Width.digits : Width → String
  | .w32 => "32"
  | .w64 => "64"

/-- The suffix that tells signed operators from unsigned ones. -/
def Signedness.suffix : Signedness → String
  | .signed => "_s"
  | .unsigned => "_u"

/-- The operator part of the text name. -/
def IntRel.name : IntRel → String
  | .eq => "eq"
  | .ne => "ne"
  | .lt s => "lt" ++ s.suffix
  | .gt s => "gt" ++ s.suffix
  | .le s => "le" ++ s.suffix
  | .ge s => "ge" ++ s.suffix

/-- The operator part of the text name. -/
def FloatRel.name : FloatRel → String
  | .eq => "eq"
  | .ne => "ne"
  | .lt => "lt"
  | .gt => "gt"
  | .le => "le"
  | .ge => "ge"

/-- The operator part of the text name. -/
def IntUnary.name : IntUnary → String
  | .clz => "clz"
  | .ctz => "ctz"
  | .popcnt => "popcnt"

/-- The operator part of the text name. -/
def IntBinary.name : IntBinary → String
  | .add => "add"
  | .sub => "sub"
  | .mul => "mul"
  | .div s => "div" ++ s.suffix
  | .rem s => "rem" ++ s.suffix
  | .and => "and"
  | .or => "or"
  | .xor => "xor"
  | .shl => "shl"
  | .shr s => "shr" ++ s.suffix
  | .rotl => "rotl"
  | .rotr => "rotr"

/-- The operator part of the text name. -/
def FloatUnary.name : FloatUnary → String
  | .abs => "abs"
  | .neg => "neg"
  | .ceil => "ceil"
  | .floor => "floor"
  | .trunc => "trunc"
  | .nearest => "nearest"
  | .sqrt => "sqrt"

/-- The operator part of the text name. -/
def FloatBinary.name : FloatBinary → String
  | .add => "add"
  | .sub => "sub"
  | .mul => "mul"
  | .div => "div"
  | .min => "min"
  | .max => "max"
  | .copysign => "copysign"

namespace NumericOp

/-- The name of the operator in the text format, e.g. `i32.add`. -/
def mnemonic : NumericOp → String
  | eqz w => "i" ++ w.digits ++ ".eqz"
  | intRel w r => "i" ++ w.digits ++ "." ++ r.name
  | floatRel w r => "f" ++ w.digits ++ "." ++ r.name
  | intUnary w o => "i" ++ w.digits ++ "." ++ o.name
  | intBinary w o => "i" ++ w.digits ++ "." ++ o.name
  | floatUnary w o => "f" ++ w.digits ++ "." ++ o.name
  | floatBinary w o => "f" ++ w.digits ++ "." ++ o.name
  | wrap => "i32.wrap_i64"
  | trunc t f s => "i" ++ t.digits ++ ".trunc_f" ++ f.digits ++ s.suffix
  | truncSat t f s => "i" ++ t.digits ++ ".trunc_sat_f" ++ f.digits ++ s.suffix
  | widen s => "i64.extend_i32" ++ s.suffix
  | convert t f s => "f" ++ t.digits ++ ".convert_i" ++ f.digits ++ s.suffix
  | demote => "f32.demote_f64"
  | promote => "f64.promote_f32"
  | floatBits w => "i" ++ w.digits ++ ".reinterpret_f" ++ w.digits
  | floatOfBits w => "f" ++ w.digits ++ ".reinterpret_i" ++ w.digits
  | extend8 w => "i" ++ w.digits ++ ".extend8_s"
  | extend16 w => "i" ++ w.digits ++ ".extend16_s"
  | extend32 => "i64.extend32_s"

/-! ## Opcodes -/

/-- Both readings of an operator, signed first. -/
def bothSigns (op : Signedness → α) : List α := [op .signed, op .unsigned]

/-- The test and the comparisons of one integer width, in opcode order. -/
def intTests (w : Width) : List NumericOp :=
  [eqz w, intRel w .eq, intRel w .ne] ++
    ([IntRel.lt, .gt, .le, .ge].flatMap fun rel => bothSigns fun s => intRel w (rel s))

/-- The comparisons of one float width, in opcode order. -/
def floatTests (w : Width) : List NumericOp :=
  [FloatRel.eq, .ne, .lt, .gt, .le, .ge].map (floatRel w)

/-- The arithmetic of one integer width, in opcode order. -/
def intArithmetic (w : Width) : List NumericOp :=
  [IntUnary.clz, .ctz, .popcnt].map (intUnary w) ++
    [IntBinary.add, .sub, .mul, .div .signed, .div .unsigned, .rem .signed, .rem .unsigned,
      .and, .or, .xor, .shl, .shr .signed, .shr .unsigned, .rotl, .rotr].map (intBinary w)

/-- The arithmetic of one float width, in opcode order. -/
def floatArithmetic (w : Width) : List NumericOp :=
  [FloatUnary.abs, .neg, .ceil, .floor, .trunc, .nearest, .sqrt].map (floatUnary w) ++
    [FloatBinary.add, .sub, .mul, .div, .min, .max, .copysign].map (floatBinary w)

/-- The conversions, in opcode order. -/
def conversions : List NumericOp :=
  [wrap] ++ bothSigns (trunc .w32 .w32) ++ bothSigns (trunc .w32 .w64) ++
    bothSigns widen ++ bothSigns (trunc .w64 .w32) ++ bothSigns (trunc .w64 .w64) ++
    bothSigns (convert .w32 .w32) ++ bothSigns (convert .w32 .w64) ++ [demote] ++
    bothSigns (convert .w64 .w32) ++ bothSigns (convert .w64 .w64) ++ [promote] ++
    [floatBits .w32, floatBits .w64, floatOfBits .w32, floatOfBits .w64]

/-- Every operator with a single-byte opcode, in opcode order from `firstOpcode` on. -/
def plain : Array NumericOp :=
  (intTests .w32 ++ intTests .w64 ++ floatTests .w32 ++ floatTests .w64 ++
    intArithmetic .w32 ++ intArithmetic .w64 ++ floatArithmetic .w32 ++ floatArithmetic .w64 ++
    conversions ++
    [extend8 .w32, extend16 .w32, extend8 .w64, extend16 .w64, extend32]).toArray

/-- Every operator behind the 0xFC prefix byte, in order of the number that follows it. -/
def saturating : Array NumericOp :=
  (bothSigns (truncSat .w32 .w32) ++ bothSigns (truncSat .w32 .w64) ++
    bothSigns (truncSat .w64 .w32) ++ bothSigns (truncSat .w64 .w64)).toArray

/-- The opcode of `i32.eqz`, the first numeric operator. -/
def firstOpcode : Nat := 0x45

/-- The operator with a single-byte opcode. -/
def ofOpcode? (opcode : UInt8) : Option NumericOp :=
  if firstOpcode ≤ opcode.toNat then plain[opcode.toNat - firstOpcode]? else none

/-- The operator with a number behind the 0xFC prefix byte. -/
def ofSaturating? (sub : UInt32) : Option NumericOp := saturating[sub.toNat]?

end NumericOp

end WasmPack.Wasm
