/-
  WasmPack.Binary.Instr

  Instructions in binary form.

  A structured instruction is an opening, a body and an `end`, so a body is read
  with the openings still waiting for their `end` on a list of levels, innermost
  first.  Each turn of the reading takes one opcode: a plain instruction joins
  the body, an opening starts a new level, an `end` turns the innermost level
  into an instruction of the level around it.
-/
import WasmPack.Binary.Types

namespace WasmPack.Binary

open Wasm

/-! ## Plain instructions -/

/-- The opcode that closes a body. -/
def endOpcode : UInt8 := 0x0B

/-- The opcode between the two arms of an `if`. -/
def elseOpcode : UInt8 := 0x05

/-- The number that a list of bytes spells, lowest byte first. -/
def littleEndian : List UInt8 → Nat
  | [] => 0
  | b :: rest => b.toNat + 256 * littleEndian rest

/-- Read the alignment and the offset of a memory access. -/
def readMemArg : Decode MemArg := do
  let align ← readU32
  let offset ← readU32
  return ⟨align, offset⟩

/-- Read what follows the 0xFC prefix byte at `start`. -/
def readSaturating (start : Nat) : Decode Instr := do
  let sub ← readU32
  match NumericOp.ofSaturating? sub with
  | some op => return .numeric op
  | none => failAt start (.unknownSaturating sub)

/-- Read what follows the opcode of a memory access or a numeric operator at `start`. -/
def readByTable (start : Nat) (opcode : UInt8) : Decode Instr :=
  match LoadOp.ofOpcode? opcode with
  | some op => .load op <$> readMemArg
  | none =>
    match StoreOp.ofOpcode? opcode with
    | some op => .store op <$> readMemArg
    | none =>
      match NumericOp.ofOpcode? opcode with
      | some op => return .numeric op
      | none => failAt start (.unknownOpcode opcode)

/-- The instruction of an opcode that stands alone, numeric operators apart. -/
def bare? : UInt8 → Option Instr
  | 0x00 => some .unreachable
  | 0x01 => some .nop
  | 0x0F => some .ret
  | 0x1A => some .drop
  | 0x1B => some .select
  | _ => none

/-- The instruction of an opcode that is followed by one index. -/
def indexed? : UInt8 → Option (UInt32 → Instr)
  | 0x0C => some .br
  | 0x0D => some .brIf
  | 0x10 => some .call
  | 0x20 => some .localGet
  | 0x21 => some .localSet
  | 0x22 => some .localTee
  | 0x23 => some .globalGet
  | 0x24 => some .globalSet
  | 0x3F => some .memorySize
  | 0x40 => some .memoryGrow
  | _ => none

/-- Read the labels of a `br_table`. -/
def readBrTable : Decode Instr := do
  let labels ← readVec readU32
  let default ← readU32
  return .brTable labels default

/-- Read the immediates of a `call_indirect`. -/
def readCallIndirect : Decode Instr := do
  let typeIndex ← readU32
  let table ← readU32
  return .callIndirect typeIndex table

/-- Read the immediates of an instruction that is not structured; its opcode is at `start`. -/
def readPlain (start : Nat) (opcode : UInt8) : Decode Instr :=
  match bare? opcode, indexed? opcode with
  | some instr, _ => return instr
  | none, some make => make <$> readU32
  | none, none =>
    match opcode with
    | 0x0E => readBrTable
    | 0x11 => readCallIndirect
    -- Constants; floats are kept as their bits.
    | 0x41 => .i32Const <$> readS32
    | 0x42 => .i64Const <$> readS64
    | 0x43 => (fun bytes => .f32Const (UInt32.ofNat (littleEndian bytes))) <$> readBytes 4
    | 0x44 => (fun bytes => .f64Const (UInt64.ofNat (littleEndian bytes))) <$> readBytes 8
    | 0xFC => readSaturating start
    | _ => readByTable start opcode

/-! ## Openings and levels -/

/-- A structured instruction whose `end` has not been read. -/
inductive Opening where
  | block (type : BlockType)
  | loop (type : BlockType)
  /-- An `if` in its first arm. -/
  | consequent (type : BlockType)
  /-- An `if` in its second arm. -/
  | alternative (type : BlockType) (first : Expr)
deriving Inhabited

/-- The instruction that an opening and its body make. -/
def Opening.close : Opening → Expr → Instr
  | .block t, body => .block t body
  | .loop t, body => .loop t body
  | .consequent t, body => .ifElse t body []
  | .alternative t first, body => .ifElse t first body

/-- What is missing when the input ends inside a body. -/
def Opening.missing : Opening → Cause
  | .consequent _ => .elseOrEndExpected
  | _ => .endExpected

/-- The opening with an opcode, before its type. -/
def opening? : UInt8 → Option (BlockType → Opening)
  | 0x02 => some .block
  | 0x03 => some .loop
  | 0x04 => some .consequent
  | _ => none

/-- What an opcode and its immediates bring. -/
inductive Item where
  | plain (instr : Instr)
  | opening (opening : Opening)
deriving Inhabited

/-- Read one opcode with its immediates; a structured instruction is only opened. -/
def readItem : Decode Item := do
  let start ← offset
  let opcode ← readByte
  match opening? opcode with
  | some make =>
    enter start
    return .opening (make (← readBlockType))
  | none => return .plain (← readPlain start opcode)

/-- A body under way: its opening, the instructions read so far (last first), and the levels
    around it, innermost first. -/
structure Body where
  opening : Opening
  before : List Instr := []
  outer : List (Opening × List Instr) := []
deriving Inhabited

/-- An `end` closes the innermost body: the outermost level is the result, any other becomes an
    instruction of the level around it. -/
def Body.close (b : Body) : Decode (Body ⊕ (Opening × Expr)) := do
  match b.outer with
  | [] => return .inr (b.opening, b.before.reverse)
  | (opening, before) :: outer =>
    leave
    return .inl ⟨opening, b.opening.close b.before.reverse :: before, outer⟩

/-- An `else` starts the second arm of an `if` and is out of place anywhere else. -/
def Body.alternative (b : Body) : Decode (Body ⊕ (Opening × Expr)) :=
  match b.opening with
  | .consequent t => return .inl ⟨.alternative t b.before.reverse, [], b.outer⟩
  | _ => failBehind .endExpected

/-- One turn of reading a body. -/
def Body.read (b : Body) : Decode (Body ⊕ (Opening × Expr)) := do
  match ← peek with
  | none => fail b.opening.missing
  | some opcode =>
    if opcode = endOpcode then
      let _ ← readByte
      b.close
    else if opcode = elseOpcode then
      let _ ← readByte
      b.alternative
    else
      match ← readItem with
      | .plain instr => return .inl { b with before := instr :: b.before }
      | .opening opening => return .inl ⟨opening, [], (b.opening, b.before) :: b.outer⟩

/-! ## Every turn consumes -/

theorem keeps_readMemArg : Keeps readMemArg :=
  keeps_bind keeps_readU32 fun _ => keeps_bind keeps_readU32 fun _ => keeps_pure _

theorem keeps_readSaturating (start : Nat) : Keeps (readSaturating start) :=
  keeps_bind keeps_readU32 fun _ => by
    split
    · exact keeps_pure _
    · exact (advances_failAt _ _).keeps

theorem keeps_readByTable (start : Nat) (opcode : UInt8) : Keeps (readByTable start opcode) := by
  unfold readByTable
  split
  · exact keeps_map _ keeps_readMemArg
  · split
    · exact keeps_map _ keeps_readMemArg
    · split
      · exact keeps_pure _
      · exact (advances_failAt _ _).keeps

theorem keeps_readPlain (start : Nat) (opcode : UInt8) : Keeps (readPlain start opcode) := by
  unfold readPlain
  split
  · exact keeps_pure _
  · exact keeps_map _ keeps_readU32
  · split
    · exact keeps_bind (keeps_readVec keeps_readU32) fun _ =>
        keeps_bind keeps_readU32 fun _ => keeps_pure _
    · exact keeps_bind keeps_readU32 fun _ => keeps_bind keeps_readU32 fun _ => keeps_pure _
    · exact keeps_map _ keeps_readS32
    · exact keeps_map _ keeps_readS64
    · exact keeps_map _ (keeps_readBytes 4)
    · exact keeps_map _ (keeps_readBytes 8)
    · exact keeps_readSaturating _
    · exact keeps_readByTable _ _

theorem advances_readItem : Advances readItem :=
  advances_bind_right keeps_offset fun start => advances_bind advances_readByte fun opcode => by
    split
    · exact keeps_bind (keeps_enter _) fun _ =>
        keeps_bind keeps_readBlockType fun _ => keeps_pure _
    · exact keeps_bind (keeps_readPlain _ _) fun _ => keeps_pure _

theorem keeps_close (b : Body) : Keeps b.close := by
  unfold Body.close
  split
  · exact keeps_pure _
  · exact keeps_bind keeps_leave fun _ => keeps_pure _

theorem keeps_alternative (b : Body) : Keeps b.alternative := by
  unfold Body.alternative
  split
  · exact keeps_pure _
  · exact keeps_failBehind _

theorem advances_read (b : Body) : Advances b.read :=
  advances_bind_right keeps_peek fun next => by
    split
    · exact advances_fail _
    · split
      · exact advances_bind advances_readByte fun _ => keeps_close b
      · split
        · exact advances_bind advances_readByte fun _ => keeps_alternative b
        · exact advances_bind advances_readItem fun item => by
            split <;> exact keeps_pure _

/-! ## Instructions and expressions -/

/-- Read the rest of a body up to its `end`.  An `if` may have changed its arm on the way, so the
    opening that the `end` closes comes with the body. -/
def readBody (opening : Opening) : Decode (Opening × Expr) :=
  iterate Body.read (Advances.on advances_read) { opening }

/-- Read one whole instruction. -/
def readInstr : Decode Instr := do
  match ← readItem with
  | .plain instr => return instr
  | .opening opening =>
    let (last, body) ← readBody opening
    leave
    return last.close body

/-- Read an expression and its `end`.  It is read as the body of a block which has no type and
    does not count as nesting. -/
def readExpr : Decode Expr := do
  let (_, body) ← readBody (.block .empty)
  return body

end WasmPack.Binary
