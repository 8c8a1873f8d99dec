/-
  WasmPack.Compile.Operator

  Numeric operators as commands.  The operands are loaded from the top of the
  operand stack into `#a` and `#b`, and the result takes the place of the lower
  one.  An operator without a command of its own calls a routine.
-/
import WasmPack.Command.Basic
import WasmPack.Compile.Error

namespace WasmPack.Compile

open Wasm

/-- The commands of an operator, and its effect on the height of the operand stack. -/
structure Lowered where
  pops : UInt32
  pushes : UInt32
  commands : List Command
deriving DecidableEq, Inhabited

/-- The top of the operand stack. -/
def top : Path := .operand (-1)

/-- Load the upper operand, drop it, and load the lower one. -/
def loadOperands : List Command := [.load .b top, .dropOperand, .load .a top]

/-- Write whether a condition holds over the top of the operand stack. -/
def storeTruth (condition : Modifier) : Command :=
  .test [.store .success (.storage top .int), condition]

/-- An operator of one operand that works on `#a`. -/
def unary (body : List Command) : Lowered :=
  ⟨1, 1, [.load .a top] ++ body ++ [.save top .a]⟩

/-- An operator of two operands that works on `#a` and `#b`. -/
def binary (body : List Command) : Lowered :=
  ⟨2, 1, loadOperands ++ body ++ [.save top .a]⟩

/-- Move both operands by half the range, which takes the unsigned order to the signed one. -/
def bias : Signedness → List Command
  | .signed => []
  | .unsigned => [.addScore .a Int32.minValue, .addScore .b Int32.minValue]

/-- A comparison. -/
def comparison (sign : Signedness) (condition : Modifier) : Lowered :=
  ⟨2, 1, loadOperands ++ bias sign ++ [storeTruth condition]⟩

/-- The condition that `#a` and `#b` compare so. -/
def relation (op : Compare) : Condition := .compare .a op .b

/-- Reduce `#a` to its low bits, and take the modulus away where the top one of them is set. -/
def signExtend (modulus : Int32) : List Command :=
  [.operation .a .mod (.const modulus),
    (Command.addScore .a (-modulus)).ifIn .a (.atLeast (modulus / 2))]

/-- A comparison of integers. -/
def lowerRel : IntRel → Lowered
  | .eq => comparison .signed (.onlyIf (relation .eq))
  | .ne => comparison .signed (.exceptIf (relation .eq))
  | .lt s => comparison s (.onlyIf (relation .lt))
  | .gt s => comparison s (.onlyIf (relation .gt))
  | .le s => comparison s (.onlyIf (relation .le))
  | .ge s => comparison s (.onlyIf (relation .ge))

/-- What an operator of two integers does to `#a` and `#b`. -/
def binaryBody : IntBinary → List Command
  | .add => [.operation .a .add .b]
  | .sub => [.operation .a .sub .b]
  | .mul => [.operation .a .mul .b]
  | .div .signed => [.call (.routine .divS)]
  | .div .unsigned => [.call (.routine .divU)]
  | .rem .signed => [.call (.routine .remS)]
  | .rem .unsigned => [.call (.routine .remU)]
  | .and => [.call (.routine .and)]
  | .or => [.call (.routine .or)]
  | .xor => [.call (.routine .xor)]
  | .shl => [.call (.routine .shl)]
  | .shr .signed => [.call (.routine .shrS)]
  | .shr .unsigned => [.call (.routine .shrU)]
  | .rotl => [.call (.routine .rotl)]
  | .rotr => [.call (.routine .rotr)]

/-- The routine that counts bits. -/
def countRoutine : IntUnary → Routine
  | .clz => .clz
  | .ctz => .ctz
  | .popcnt => .popcnt

/-- The commands of an operator on 32-bit integers; other types are not supported. -/
def lowerNumeric : NumericOp → Except CompileError Lowered
  | .eqz .w32 => return ⟨1, 1, [.load .a top, storeTruth (.ifIn .a (.exact 0))]⟩
  | .intRel .w32 rel => return lowerRel rel
  | .intUnary .w32 op => return unary [.call (.routine (countRoutine op))]
  | .intBinary .w32 op => return binary (binaryBody op)
  | .extend8 .w32 => return unary (signExtend 256)
  | .extend16 .w32 => return unary (signExtend 65536)
  | op => throw (.unsupportedInstruction op.mnemonic)

end WasmPack.Compile
