/-
  WasmPack.Compile.Access

  Loads and stores as commands.  A memory hands out single bytes, by an address
  in `#index` and with the byte in `#a`; a wider access handles its bytes one by
  one, the least significant first.  `#address`, `#c` and `#d` keep their values
  while a byte is read or written.
-/
import WasmPack.Compile.Operator

namespace WasmPack.Compile

open Wasm

/-- The number of bytes that a load reads, and whether the last of them brings its sign. -/
def loadShape? : LoadOp → Option (Nat × Signedness)
  | .full .i32 => some (4, .signed)
  | .load8 .w32 sign => some (1, sign)
  | .load16 .w32 sign => some (2, sign)
  | _ => none

/-- The number of bytes that a store writes. -/
def storeWidth? : StoreOp → Option Nat
  | .full .i32 => some 4
  | .store8 .w32 => some 1
  | .store16 .w32 => some 2
  | _ => none

/-- Load the address on top of the operand stack and move it by the static offset. -/
def loadAddress (arg : MemArg) : List Command :=
  .load .address top :: if arg.offset = 0 then [] else [.addScore .address arg.offset.toInt32]

/-- Put the address of a byte into `#index`. -/
def byteAddress (k : Nat) : List Command :=
  .copy .index .address :: if k = 0 then [] else [.addScore .index (Int32.ofNat k)]

/-- The weight of a byte. -/
def byteWeight (k : Nat) : Int32 := Int32.ofNat (1 <<< (8 * k))

/-- Read a byte and add it to `#c`.  A byte is read signed; only the last byte of a signed load
    keeps its sign. -/
def loadByte (width : Nat) (sign : Signedness) (k : Nat) : List Command :=
  byteAddress k ++ [.call (.memory 0 .get)] ++
    (if k + 1 = width ∧ sign = .signed then []
      else [(Command.addScore .a 256).ifIn .a (.atMost (-1))]) ++
    if k = 0 then [.copy .c .a]
    else [.operation .a .mul (.const (byteWeight k)), .operation .c .add .a]

/-- Put the value at the address on top of the operand stack into its place. -/
def lowerLoad (op : LoadOp) (arg : MemArg) : Except CompileError (List Command) :=
  match loadShape? op with
  | some (width, sign) =>
    return loadAddress arg ++ (List.range width).flatMap (loadByte width sign) ++ [.save top .c]
  | none => throw (.unsupportedInstruction op.mnemonic)

/-- Write the low byte of `#d`, and move the next one into its place. -/
def storeByte (width k : Nat) : List Command :=
  byteAddress k ++
    [.copy .a .d, .operation .a .mod (.const 256), .call (.memory 0 .set)] ++
    if k + 1 < width then [.operation .d .div (.const 256)] else []

/-- Take a value and an address from the operand stack and write the low bytes of the value. -/
def lowerStore (op : StoreOp) (arg : MemArg) : Except CompileError (List Command) :=
  match storeWidth? op with
  | some width =>
    return [.load .d top, .dropOperand] ++ loadAddress arg ++ [.dropOperand] ++
      (List.range width).flatMap (storeByte width)
  | none => throw (.unsupportedInstruction op.mnemonic)

end WasmPack.Compile
