/-
  WasmPack.Proofs.Validation.Supported

  The modules that code generation means to accept, apart from their being
  valid: 32-bit integers only, instructions with a translation in live code,
  names that can be names of sequences, and memories that fit.
-/
import WasmPack.Proofs.Compile.Live
import WasmPack.Proofs.Compile.Straight
import WasmPack.Proofs.Validation.Counts

namespace WasmPack

namespace Wasm

/-- The load brings a 32-bit integer. -/
def LoadOp.isSupported : LoadOp → Bool
  | .full .i32 | .load8 .w32 _ | .load16 .w32 _ => true
  | _ => false

/-- The store writes a 32-bit integer. -/
def StoreOp.isSupported : StoreOp → Bool
  | .full .i32 | .store8 .w32 | .store16 .w32 => true
  | _ => false

/-- The result of the construct, if declared with it, is a 32-bit integer. -/
def BlockType.isSupported : BlockType → Bool
  | .value type => type = .i32
  | _ => true

/-- The instruction itself has a translation. -/
def Instr.isSupported : Instr → Bool
  | .block type _ | .loop type _ | .ifElse type _ _ => type.isSupported
  | .load op _ => op.isSupported
  | .store op _ => op.isSupported
  | .numeric op => op ∈ Compile.supportedOps
  | .callIndirect .. | .i64Const _ | .f32Const _ | .f64Const _ => false
  | _ => true

mutual

/-- How deep constructs are nested in an instruction. -/
def Instr.nesting : Instr → Nat
  | .block _ body | .loop _ body => nestingOf body + 1
  | .ifElse _ consequent alternative => max (nestingOf consequent) (nestingOf alternative) + 1
  | _ => 0
termination_by structural i => i

/-- How deep constructs are nested in a list of instructions. -/
def nestingOf : List Instr → Nat
  | [] => 0
  | i :: rest => max i.nesting (nestingOf rest)
termination_by structural body => body

end

/-- The limits of a memory are in order, and allow no more pages than there are addresses for. -/
structure Limits.InOrder (limits : Limits) : Prop where
  min : limits.min.toNat ≤ 65536
  max : ∀ max, limits.max = some max → limits.min ≤ max ∧ max.toNat ≤ 65536

/-- An import of something that can be called. -/
structure Import.Supported (i : Import) : Prop where
  origin : Compile.checkNamespace i.origin = .ok ()
  member : Compile.checkName .imported i.member = .ok ()
  memory : ∀ limits, i.desc = .memory limits → limits.InOrder
  global : ∀ type, i.desc = .global type → type.valueType = .i32
  noTable : ∀ type, i.desc ≠ .table type

/-- A module of supported parts. -/
structure Module.Supported (m : Module) : Prop where
  imports : ∀ i ∈ m.imports, i.Supported
  types : ∀ type ∈ m.types, ∀ t ∈ type.params ++ type.results, t = .i32
  locals : ∀ f ∈ m.funcs, ∀ t ∈ f.locals, t = .i32
  globals : ∀ g ∈ m.globals, g.type.valueType = .i32
  memories : ∀ limits ∈ m.memories, limits.InOrder
  names : ∀ e ∈ m.exports, Compile.checkName .exported e.name = .ok ()
  noTable : ∀ e ∈ m.exports, e.kind ≠ .table
  code : m.allLive Instr.isSupported = true
  nesting : ∀ body ∈ m.code, nestingOf body ≤ maxNesting

end Wasm

namespace Compile

open Wasm

/-! ## Translations of single instructions -/

theorem exists_lowerNumeric {op : NumericOp} (h : op ∈ supportedOps) :
    ∃ cs, lowerNumeric op = .ok ⟨UInt32.ofNat op.operands, 1, cs⟩ := by
  have hall : ∀ op ∈ supportedOps, (lowerNumeric op).toOption.map (fun l => (l.pops, l.pushes)) =
      some (UInt32.ofNat op.operands, 1) := by decide
  obtain ⟨⟨pops, pushes, cs⟩, hlowered, hcounts⟩ := Option.map_eq_some_iff.1 (hall op h)
  obtain ⟨rfl, rfl⟩ := Prod.mk.inj hcounts
  refine ⟨cs, ?_⟩
  cases hop : lowerNumeric op with
  | ok lowered =>
    rw [hop] at hlowered
    exact congrArg Except.ok (Option.some.inj hlowered)
  | error e =>
    rw [hop] at hlowered
    cases hlowered

theorem exists_lowerLoad {op : LoadOp} (h : op.isSupported = true) (arg : MemArg) :
    ∃ cs, lowerLoad op arg = .ok cs := by
  unfold LoadOp.isSupported at h
  split at h
  · exact ⟨_, rfl⟩
  · exact ⟨_, rfl⟩
  · exact ⟨_, rfl⟩
  · cases h

theorem exists_lowerStore {op : StoreOp} (h : op.isSupported = true) (arg : MemArg) :
    ∃ cs, lowerStore op arg = .ok cs := by
  unfold StoreOp.isSupported at h
  split at h
  · exact ⟨_, rfl⟩
  · exact ⟨_, rfl⟩
  · exact ⟨_, rfl⟩
  · cases h

/-! ## Declarations -/

theorem checkLimits_of_inOrder {limits : Limits} (h : limits.InOrder) :
    checkLimits limits = .ok () := by
  have hmax : effectiveMax limits ≤ maxPages ∧ limits.min ≤ effectiveMax limits := by
    unfold effectiveMax
    cases hmax : limits.max with
    | none => exact ⟨UInt32.le_refl _, h.min⟩
    | some max => exact ⟨(h.max max hmax).2, (h.max max hmax).1⟩
  unfold checkLimits
  rw [if_neg (UInt32.not_lt.2 hmax.1), if_neg (UInt32.not_lt.2 hmax.2)]
  rfl

end Compile

end WasmPack
