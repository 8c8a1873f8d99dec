/-
  WasmPack.Proofs.Compile.Straight

  The commands of instructions without branches.  Apart from calls of functions
  and access to locals they are basic: they work on registers and operands, and
  call nothing but routines and the operations on memories and globals.
-/
import WasmPack.Proofs.Compile.Inversion
import WasmPack.Proofs.State.Frame

namespace WasmPack

/-! ## Basic commands -/

/-- An operation that instructions without branches may call. -/
def Symbol.isOperation : Symbol → Bool
  | .memory _ op => op ∈ MemoryOp.exported
  | .global _ _ => true
  | .routine r => r ∉ [.load, .byteGet, .byteSet]
  | _ => false

/-- Calls of operations. -/
def Calls.operations : Calls := ⟨Symbol.isOperation, fun _ => false⟩

/-- The registers that are neither constants nor `#br_depth`, and the operand stack. -/
def Writes.operands : Writes := ⟨fun r => r.isWork && decide (r ≠ .brDepth), fun k => k = "stack"⟩

/-- The command works on registers and operands, and may call operations. -/
def Command.isBasic (c : Command) : Bool := c.staysIn .operands .operations && c.staysHome

theorem Command.staysIn_of_isBasic {c : Command} (hc : c.isBasic = true) :
    c.staysIn .operands .operations = true := (Bool.and_eq_true_iff.1 hc).1

namespace Compile

open Wasm

variable {α : Type} {cs ds : List Command} {c : Command} {P Q : Command → Bool}

/-! ## Lists of commands of one kind -/

/-- All the commands are of a kind. -/
def All (P : Command → Bool) (cs : List Command) : Prop := ∀ c ∈ cs, P c = true

instance (P : Command → Bool) (cs : List Command) : Decidable (All P cs) := List.decidableBAll _ cs

@[simp] theorem all_nil : All P [] := fun _ h => nomatch h

@[simp] theorem all_cons : All P (c :: cs) ↔ P c = true ∧ All P cs := List.forall_mem_cons

@[simp] theorem all_append : All P (cs ++ ds) ↔ All P cs ∧ All P ds := List.forall_mem_append

theorem All.mono (h : All P cs) (hPQ : ∀ c, P c = true → Q c = true) : All Q cs :=
  fun c hc => hPQ c (h c hc)

theorem all_map {xs : List α} {f : α → Command} (h : ∀ x ∈ xs, P (f x) = true) :
    All P (xs.map f) := by
  intro c hc
  obtain ⟨x, hx, rfl⟩ := List.mem_map.1 hc
  exact h x hx

theorem all_replicate {n : Nat} (h : P c = true) : All P (List.replicate n c) := by
  intro d hd
  rw [List.eq_of_mem_replicate hd]
  exact h

theorem all_flatMap {xs : List α} {f : α → List Command} (h : ∀ x ∈ xs, All P (f x)) :
    All P (xs.flatMap f) := by
  intro c hc
  obtain ⟨x, hx, hc⟩ := List.mem_flatMap.1 hc
  exact h x hx c hc

/-- Commands that work on registers and operands. -/
abbrev Basic : List Command → Prop := All Command.isBasic

/-! ## Numbers -/

theorem isBasic_addScore {r : Register} {n : Int32} (h : Writes.operands.register r = true) :
    (Command.addScore r n).isBasic = true := by
  simp [Command.isBasic, Command.staysIn, Command.staysHome, Command.isWithin,
    Command.callsWithin, Command.paths, h]

/-- The operators on 32-bit integers. -/
def supportedOps : List NumericOp :=
  NumericOp.intTests .w32 ++ NumericOp.intArithmetic .w32 ++ [.extend8 .w32, .extend16 .w32]

/-- What the supported operators become. -/
def supportedNumeric : List Lowered := supportedOps.filterMap fun op => (lowerNumeric op).toOption

theorem mem_supportedOps {op : NumericOp} {lowered : Lowered} (h : lowerNumeric op = .ok lowered) :
    op ∈ supportedOps := by
  unfold lowerNumeric at h
  split at h
  · decide
  · rename_i rel
    cases rel with
    | eq => decide
    | ne => decide
    | lt s => cases s <;> decide
    | gt s => cases s <;> decide
    | le s => cases s <;> decide
    | ge s => cases s <;> decide
  · rename_i op
    cases op <;> decide
  · rename_i op
    cases op with
    | div s => cases s <;> decide
    | rem s => cases s <;> decide
    | shr s => cases s <;> decide
    | _ => decide
  · decide
  · decide
  · cases h

/-- There are only so many operators, so a property of what they become can be decided. -/
theorem mem_supportedNumeric {op : NumericOp} {lowered : Lowered}
    (h : lowerNumeric op = .ok lowered) : lowered ∈ supportedNumeric :=
  List.mem_filterMap.2 ⟨op, mem_supportedOps h, by rw [h]; rfl⟩

theorem basic_of_lowerNumeric {op : NumericOp} {lowered : Lowered}
    (h : lowerNumeric op = .ok lowered) : Basic lowered.commands := by
  have hall : ∀ lowered ∈ supportedNumeric, Basic lowered.commands := by decide
  exact hall lowered (mem_supportedNumeric h)

/-! ## Memories -/

theorem basic_loadAddress (arg : MemArg) : Basic (loadAddress arg) := by
  unfold loadAddress
  split
  · decide
  · exact all_cons.2 ⟨by decide, all_cons.2 ⟨isBasic_addScore rfl, all_nil⟩⟩

theorem basic_byteAddress (k : Nat) : Basic (byteAddress k) := by
  unfold byteAddress
  split
  · exact all_cons.2 ⟨by decide, all_nil⟩
  · exact all_cons.2 ⟨by decide, all_cons.2 ⟨isBasic_addScore rfl, all_nil⟩⟩

theorem basic_loadByte (width : Nat) (sign : Signedness) (k : Nat) :
    Basic (loadByte width sign k) := by
  have hmul : (Command.operation .a .mul (.const (byteWeight k))).isBasic = true := rfl
  unfold loadByte
  simp only [all_append]
  refine ⟨⟨⟨basic_byteAddress k, by decide⟩, ?_⟩, ?_⟩
  · split <;> decide
  · split
    · decide
    · exact all_cons.2 ⟨hmul, by decide⟩

theorem basic_of_lowerLoad {op : LoadOp} {arg : MemArg} (h : lowerLoad op arg = .ok cs) :
    Basic cs := by
  unfold lowerLoad at h
  split at h
  · cases h
    simp only [all_append]
    exact ⟨⟨basic_loadAddress arg, all_flatMap fun k _ => basic_loadByte _ _ k⟩, by decide⟩
  · cases h

theorem basic_storeByte (width k : Nat) : Basic (storeByte width k) := by
  unfold storeByte
  simp only [all_append]
  refine ⟨⟨basic_byteAddress k, by decide⟩, ?_⟩
  split <;> decide

theorem basic_of_lowerStore {op : StoreOp} {arg : MemArg} (h : lowerStore op arg = .ok cs) :
    Basic cs := by
  unfold lowerStore at h
  split at h
  · cases h
    simp only [all_append]
    exact ⟨⟨⟨by decide, basic_loadAddress arg⟩, by decide⟩,
      all_flatMap fun k _ => basic_storeByte _ k⟩
  · cases h

/-! ## Instructions without branches -/

/-- A basic command, or one that reads or writes one of a number of locals. -/
inductive IsStep (locals : Nat) : Command → Prop where
  | basic {c : Command} (h : c.isBasic = true) : IsStep locals c
  | readLocal {i : UInt32} (hi : i.toNat < locals) : IsStep locals (.appendFrom .stack (.local i))
  | writeLocal {i : UInt32} (hi : i.toNat < locals) : IsStep locals (.setFrom (.local i) top)

/-- The commands of an instruction without branches: the call of a function of the module, with as
    many arguments as its type has, or steps. -/
inductive IsStraight (scope : Scope) : List Command → Prop where
  | call {func : UInt32} {entry : FuncEntry} (h : scope.spaces.funcAt func = .ok entry) :
      IsStraight scope (callSequence (.func func) (arityOf entry.type).params.toNat)
  | steps {cs : List Command} (h : ∀ c ∈ cs, IsStep scope.locals c) : IsStraight scope cs

theorem IsStraight.basic {scope : Scope} (h : Basic cs) : IsStraight scope cs :=
  .steps fun c hc => .basic (h c hc)

theorem isStraight_of_lowerStraight {scope : Scope} {height height' : UInt32} {i : Instr}
    (h : lowerStraight scope height i = .ok (cs, height')) : IsStraight scope cs := by
  cases lowerStraight_eq_ok.1 h with
  | nop => exact .basic all_nil
  | call hf => exact .call hf
  | drop | select => exact .basic (by decide)
  | localGet hindex => exact .steps (List.forall_mem_singleton.2 (.readLocal hindex))
  | localSet hindex =>
    exact .steps (List.forall_mem_cons.2 ⟨.writeLocal hindex,
      List.forall_mem_singleton.2 (.basic (by decide))⟩)
  | localTee hindex => exact .steps (List.forall_mem_singleton.2 (.writeLocal hindex))
  -- What is called here is an operation, and what is pushed is a value.
  | globalGet | globalSet | memorySize | memoryGrow | i32Const =>
    exact .basic (all_cons.2 ⟨rfl, all_nil⟩)
  | load hm hbase hload => exact .basic (basic_of_lowerLoad hload)
  | store hm hbase hstore => exact .basic (basic_of_lowerStore hstore)
  | numeric hop => exact .basic (basic_of_lowerNumeric hop)

end Compile

end WasmPack
