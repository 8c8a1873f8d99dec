/-
  WasmPack.Binary.Section

  The entries of the sections of a module, and the frame around a section: its
  number, its size in bytes, and the custom sections that may follow it.
-/
import WasmPack.Binary.Instr
import WasmPack.Wasm.Module

namespace WasmPack.Binary

open Wasm

/-! ## Entries -/

/-- Read an import. -/
def readImport : Decode Import := do
  let origin ← readName
  let member ← readName
  let start ← offset
  match ← readByte with
  | 0 => return ⟨origin, member, .func (← readU32)⟩
  | 1 => return ⟨origin, member, .table (← readTableType)⟩
  | 2 => return ⟨origin, member, .memory (← readLimits)⟩
  | 3 => return ⟨origin, member, .global (← readGlobalType)⟩
  | _ => failAt start .malformedImport

/-- Read a global definition. -/
def readGlobal : Decode Global := do
  let type ← readGlobalType
  let init ← readExpr
  return ⟨type, init⟩

/-- The kind of export with a number. -/
def exportKind? : UInt8 → Option ExportKind
  | 0 => some .func
  | 1 => some .table
  | 2 => some .memory
  | 3 => some .global
  | _ => none

/-- Read an export. -/
def readExport : Decode Export := do
  let name ← readName
  let start ← offset
  match exportKind? (← readByte) with
  | some kind => return ⟨name, kind, ← readU32⟩
  | none => failAt start .malformedExport

/-- Read an element segment. -/
def readElem : Decode Elem := do
  let table ← readU32
  let offset ← readExpr
  let init ← readVec readU32
  return ⟨table, offset, init⟩

/-- Read a data segment. -/
def readData : Decode Data := do
  let memory ← readU32
  let offset ← readExpr
  let length ← readU32
  let init ← readBytes length.toNat
  return ⟨memory, offset, init⟩

/-! ## Frames with a size -/

/-- Read a size and then `contents`, which must end exactly where the size says. -/
def sized (contents : Decode α) : Decode α := do
  let size ← readU32
  let stop := (← offset) + size.toNat
  let a ← contents
  if (← offset) = stop then return a else fail .sizeMismatch

/-! ## Code -/

/-- What the code section says about a function. -/
structure Code where
  locals : List ValueType
  body : Expr
deriving Inhabited

/-- The most locals a function may declare. -/
def maxLocals : Nat := 50000

/-- Read `groups` runs of locals of one type, when `total` locals have been declared already. -/
def readLocalGroups : (groups : Nat) → (total : Nat) → List (Nat × ValueType) →
    Decode (List (Nat × ValueType))
  | 0, _, before => return before.reverse
  | groups + 1, total, before => do
    let count := (← readU32).toNat
    -- Checked before the locals are made, so that a few bytes cannot ask for billions of them.
    if maxLocals < total + count then fail .tooManyLocals
    let type ← readValueType
    readLocalGroups groups (total + count) ((count, type) :: before)

/-- Read the declared locals of a function. -/
def readLocals : Decode (List ValueType) := do
  let groups ← readU32
  let runs ← readLocalGroups groups.toNat 0 []
  return runs.flatMap fun (count, type) => List.replicate count type

/-- Read an entry of the code section. -/
def readCode : Decode Code := sized do
  let locals ← readLocals
  let body ← readExpr
  return ⟨locals, body⟩

/-! ## Custom sections -/

/-- The number of a custom section. -/
def customId : UInt8 := 0

/-- Skip the contents of a custom section that ends at `stop`, behind its name. -/
def skipContents (stop : Nat) : Decode Unit := do
  if stop < (← offset) then fail .customNameTooLong else skipTo stop

/-- Skip a custom section if one comes next, and say whether there was one. -/
def skipCustom : Decode (Unit ⊕ Unit) := do
  if (← peek) = some customId then
    let _ ← readByte
    let size ← readU32
    let stop := (← offset) + size.toNat
    -- The name may run past the end of the section; that shows only behind it.
    let _ ← readName
    skipContents stop
    return .inl ()
  else
    return .inr ()

theorem keeps_skipContents (stop : Nat) : Keeps (skipContents stop) := by
  intro c a c' hr
  obtain ⟨pos, m, ho, hr⟩ := bind_eq_ok.1 hr
  cases ho
  by_cases hlt : stop < c.pos
  · rw [if_pos hlt] at hr
    cases hr
  · rw [if_neg hlt] at hr
    unfold skipTo at hr
    split at hr
    · cases hr
      simp only [Cursor.remaining]
      omega
    · cases hr

theorem advancesOn_skipCustom : AdvancesOn fun _ : Unit => skipCustom := by
  intro _ c _ c' hr
  obtain ⟨next, m, hp, hr⟩ := bind_eq_ok.1 hr
  cases hp
  split at hr
  · refine advances_bind advances_readByte (fun _ => ?_) c _ c' hr
    refine keeps_bind keeps_readU32 fun size => keeps_bind keeps_offset fun start => ?_
    exact keeps_bind keeps_readName fun _ => keeps_bind (keeps_skipContents _) fun _ => keeps_pure _
  · cases hr

/-- Skip all custom sections that come next. -/
def skipCustoms : Decode Unit := iterate (fun _ => skipCustom) advancesOn_skipCustom ()

/-- Read the section with a number if it comes next, and the custom sections behind it. -/
def readSection (id : UInt8) (absent : α) (contents : Decode α) : Decode α := do
  if (← peek) = some id then
    let _ ← readByte
    let a ← sized contents
    skipCustoms
    return a
  else
    return absent

end WasmPack.Binary
