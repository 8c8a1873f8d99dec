/-
  WasmPack.Proofs.Compile.Live

  Live code: what is left of a body when nothing is looked at behind an
  unconditional transfer of control.  Code generation leaves the rest out, so
  what is asked of a module is asked of its live code.
-/
import WasmPack.Wasm.Module

namespace WasmPack.Wasm

namespace Instr

/-- Behind the instruction nothing of its list is reached. -/
def stops : Instr → Bool
  | .unreachable | .br _ | .brTable _ _ | .ret => true
  | _ => false

mutual

/-- The test holds of an instruction, and of all live code inside it. -/
def liveAll (P : Instr → Bool) : Instr → Bool
  | .block type body => P (.block type body) && allLive P body
  | .loop type body => P (.loop type body) && allLive P body
  | .ifElse type consequent alternative =>
    P (.ifElse type consequent alternative) && (allLive P consequent && allLive P alternative)
  | i => P i

/-- The test holds of all live code in a list of instructions. -/
def allLive (P : Instr → Bool) : List Instr → Bool
  | [] => true
  | i :: rest => i.liveAll P && (i.stops || allLive P rest)

end

variable {P : Instr → Bool}

theorem self_of_liveAll : ∀ {i : Instr}, i.liveAll P = true → P i = true
  | .block _ _, h | .loop _ _, h | .ifElse _ _ _, h => (Bool.and_eq_true_iff.1 h).1
  | .unreachable, h | .br _, h | .brIf _, h | .brTable _ _, h | .ret, h | .nop, h | .call _, h
  | .callIndirect _ _, h | .drop, h | .select, h | .localGet _, h | .localSet _, h | .localTee _, h
  | .globalGet _, h | .globalSet _, h | .load _ _, h | .store _ _, h | .memorySize _, h
  | .memoryGrow _, h | .i32Const _, h | .i64Const _, h | .f32Const _, h | .f64Const _, h
  | .numeric _, h => h

theorem allLive_cons {i : Instr} {rest : List Instr} : allLive P (i :: rest) = true ↔
    i.liveAll P = true ∧ (i.stops = false → allLive P rest = true) := by
  rw [allLive, Bool.and_eq_true_iff, Bool.or_eq_true_iff]
  cases i.stops <;> simp

mutual

/-- What every instruction passes, live code passes. -/
theorem liveAll_of_forall (h : ∀ i, P i = true) : ∀ i : Instr, i.liveAll P = true
  | .block _ body | .loop _ body => by
    rw [liveAll, h, allLive_of_forall h body]
    rfl
  | .ifElse _ consequent alternative => by
    rw [liveAll, h, allLive_of_forall h consequent, allLive_of_forall h alternative]
    rfl
  | .unreachable | .br _ | .brIf _ | .brTable _ _ | .ret | .nop | .call _ | .callIndirect _ _
  | .drop | .select | .localGet _ | .localSet _ | .localTee _ | .globalGet _ | .globalSet _
  | .load _ _ | .store _ _ | .memorySize _ | .memoryGrow _ | .i32Const _ | .i64Const _
  | .f32Const _ | .f64Const _ | .numeric _ => h _

theorem allLive_of_forall (h : ∀ i, P i = true) : ∀ body : List Instr, allLive P body = true
  | [] => rfl
  | i :: rest => allLive_cons.2 ⟨liveAll_of_forall h i, fun _ => allLive_of_forall h rest⟩

end

end Instr

/-- The code that is compiled with a module: the bodies of its functions, the first values of its
    globals, and the offsets of its data segments. -/
def Module.code (m : Module) : List Expr :=
  m.funcs.map (·.body) ++ m.globals.map (·.init) ++ m.data.map (·.offset)

/-- The test holds of all live code of a module. -/
def Module.allLive (m : Module) (P : Instr → Bool) : Bool := m.code.all (Instr.allLive P)

end WasmPack.Wasm
