/-
  WasmPack.Proofs.Operands.Heights

  The operands that the commands of an instruction without branches take and
  leave.  They are those that code generation reckons with.
-/
import WasmPack.Proofs.Operands.Above

namespace WasmPack

/-- An operation on a memory or a global that takes operands and leaves others. -/
inductive Symbol.Passes : Symbol → Nat → Nat → Prop where
  | size (i : UInt32) : Passes (.memory i .size) 0 1
  | grow (i : UInt32) : Passes (.memory i .grow) 1 1
  | get (i : UInt32) : Passes (.global i .get) 0 1
  | set (i : UInt32) : Passes (.global i .set) 1 0

namespace Compile

open Wasm Machine

variable {h k l : Nat} {c : Command} {cs ds body : List Command} {scope : Scope}
  {height height' : UInt32} {i : Instr} {g : Modifier}

/-! ## Commands one behind the other -/

/-- A command that reaches no deeper than `h` operands, and leaves `h'` of them. -/
inductive Lifts : Nat → Command → Nat → Prop where
  | above {h : Nat} {c : Command} (hc : c.isAbove h = true) : Lifts h c h
  | push {h : Nat} (value : Nbt) : Lifts h (.append .stack value) (h + 1)
  | pushFrom {h : Nat} {p : Path} (hp : Keyed p) (habove : p.isAbove h = true) :
      Lifts h (.appendFrom .stack p) (h + 1)
  | drop {h : Nat} {i : Int32} (hlow : -((h + 1 : Nat) : Int) ≤ i.toInt) (hneg : i.toInt < 0) :
      Lifts (h + 1) (.remove (.operand i)) h
  | operation {h k l : Nat} {q : Symbol} (hq : q.Passes k l) : Lifts (h + k) (.call q) (h + l)

/-- Commands that reach no deeper than `h` operands, and leave `h'` of them. -/
inductive LiftsAll : Nat → List Command → Nat → Prop where
  | nil {h : Nat} : LiftsAll h [] h
  | cons {h k l : Nat} {c : Command} {cs : List Command} (hc : Lifts h c k)
      (hcs : LiftsAll k cs l) : LiftsAll h (c :: cs) l

theorem LiftsAll.append (hcs : LiftsAll h cs k) (hds : LiftsAll k ds l) :
    LiftsAll h (cs ++ ds) l := by
  induction hcs with
  | nil => exact hds
  | cons hc _ ih => exact .cons hc (ih hds)

theorem LiftsAll.one (hc : Lifts h c k) : LiftsAll h [c] k := .cons hc .nil

/-- Commands among the topmost operands. -/
theorem LiftsAll.above (hcs : All (·.isAbove k) cs) (hk : k ≤ h) : LiftsAll h cs h := by
  induction cs with
  | nil => exact .nil
  | cons c cs ih =>
    obtain ⟨hc, hcs⟩ := all_cons.1 hcs
    exact .cons (.above (Command.isAbove_mono hk hc)) (ih hcs)

/-- Commands apart from the stack. -/
theorem LiftsAll.apart (hcs : All (·.isAbove 0) cs) : LiftsAll h cs h := .above hcs (Nat.zero_le h)

/-- The top of the stack is dropped. -/
theorem Lifts.dropTop : Lifts (h + 1) .dropOperand h := by
  have hlast : (-1 : Int32).toInt = -1 := by decide
  exact .drop (by rw [hlast]; omega) (by rw [hlast]; omega)

/-- The top of the stack is loaded. -/
theorem Lifts.loadTop {r : Register} (hr : Writes.apart.register r = true) :
    Lifts (h + 1) (.load r top) (h + 1) := by
  have hone : (Command.load r top).isAbove 1 = true := Bool.and_eq_true_iff.2
    ⟨List.all_eq_true.2 (List.forall_mem_singleton.2 hr), rfl⟩
  exact .above (Command.isAbove_mono (Nat.le_add_left 1 h) hone)

theorem liftsAll_popA : LiftsAll (h + 1) popA h := .cons (.loadTop rfl) (.one .dropTop)

/-! ## Numbers -/

theorem liftsAll_loadOperands : LiftsAll (h + 2) loadOperands (h + 1) :=
  .cons (.loadTop rfl) (.cons .dropTop (.one (.loadTop rfl)))

theorem liftsAll_unary (hbody : All (·.isAbove 0) body) :
    LiftsAll (h + 1) (unary body).commands (h + 1) :=
  .append (.append (.above (k := 1) (by decide) (by omega)) (.apart hbody))
    (.above (k := 1) (by decide) (by omega))

theorem liftsAll_binary (hbody : All (·.isAbove 0) body) :
    LiftsAll (h + 2) (binary body).commands (h + 1) :=
  .append (.append liftsAll_loadOperands (.apart hbody)) (.above (k := 1) (by decide) (by omega))

theorem liftsAll_comparison (sign : Signedness) (hg : g.isAbove 1 = true) :
    LiftsAll (h + 2) (comparison sign g).commands (h + 1) := by
  have hbias : All (·.isAbove 0) (bias sign) := by cases sign <;> decide
  have htruth : (storeTruth g).isAbove 1 = true :=
    List.all_eq_true.2 (List.forall_mem_cons.2 ⟨by decide, List.forall_mem_singleton.2 hg⟩)
  exact .append (.append liftsAll_loadOperands (.apart hbias))
    (.above (k := 1) (all_cons.2 ⟨htruth, all_nil⟩) (by omega))

theorem liftsAll_of_lowerNumeric {op : NumericOp} {lowered : Lowered}
    (hop : lowerNumeric op = .ok lowered) :
    LiftsAll (h + lowered.pops.toNat) lowered.commands (h + lowered.pushes.toNat) := by
  unfold lowerNumeric at hop
  split at hop
  · cases hop
    exact .above (k := 1) (by decide) (Nat.le_add_left 1 h)
  · rename_i rel
    cases hop
    cases rel <;> exact liftsAll_comparison _ rfl
  · rename_i op
    cases hop
    refine liftsAll_unary ?_
    cases op <;> decide
  · rename_i op
    cases hop
    refine liftsAll_binary ?_
    cases op with
    | div s => cases s <;> decide
    | rem s => cases s <;> decide
    | shr s => cases s <;> decide
    | _ => decide
  · cases hop
    exact liftsAll_unary (by decide)
  · cases hop
    exact liftsAll_unary (by decide)
  · cases hop

/-! ## Memories -/

theorem isAbove_loadAddress (arg : MemArg) : All (·.isAbove 1) (loadAddress arg) := by
  unfold loadAddress
  split
  · decide
  · exact all_cons.2 ⟨by decide, all_cons.2 ⟨rfl, all_nil⟩⟩

theorem isAbove_byteAddress (k : Nat) : All (·.isAbove 0) (byteAddress k) := by
  unfold byteAddress
  split
  · decide
  · exact all_cons.2 ⟨by decide, all_cons.2 ⟨rfl, all_nil⟩⟩

theorem isAbove_loadByte (width : Nat) (sign : Signedness) (k : Nat) :
    All (·.isAbove 0) (loadByte width sign k) := by
  unfold loadByte
  simp only [all_append]
  refine ⟨⟨⟨isAbove_byteAddress k, by decide⟩, ?_⟩, ?_⟩
  · split <;> decide
  · split
    · decide
    · exact all_cons.2 ⟨rfl, by decide⟩

theorem liftsAll_of_lowerLoad {op : LoadOp} {arg : MemArg} (hop : lowerLoad op arg = .ok cs) :
    LiftsAll (h + 1) cs (h + 1) := by
  unfold lowerLoad at hop
  split at hop
  · cases hop
    exact .append (.append (.above (isAbove_loadAddress arg) (by omega))
      (.apart (all_flatMap fun k _ => isAbove_loadByte _ _ k)))
      (.above (k := 1) (by decide) (by omega))
  · cases hop

theorem isAbove_storeByte (width k : Nat) : All (·.isAbove 0) (storeByte width k) := by
  unfold storeByte
  simp only [all_append]
  refine ⟨⟨isAbove_byteAddress k, by decide⟩, ?_⟩
  split <;> decide

theorem liftsAll_of_lowerStore {op : StoreOp} {arg : MemArg} (hop : lowerStore op arg = .ok cs) :
    LiftsAll (h + 2) cs h := by
  unfold lowerStore at hop
  split at hop
  · cases hop
    have hvalue : LiftsAll (h + 2) [.load .d top, .dropOperand] (h + 1) :=
      .cons (.loadTop rfl) (.one .dropTop)
    exact .append (.append (.append hvalue (.above (isAbove_loadAddress arg) (by omega)))
      (.one .dropTop)) (.apart (all_flatMap fun k _ => isAbove_storeByte _ k))
  · cases hop

/-! ## Instructions without branches -/

/-- **Heights are kept to.**  The commands of an instruction that neither branches nor calls a
    function take their operands from those that code generation reckons with, and leave as many
    as it reckons with behind the instruction. -/
theorem liftsAll_of_lowerStraight (hi : lowerStraight scope height i = .ok (cs, height'))
    (hcall : ∀ func, i ≠ .call func) : LiftsAll height.toNat cs height'.toNat := by
  cases lowerStraight_eq_ok.1 hi with
  | nop => exact .nil
  | call hf hbase hnext => exact absurd rfl (hcall _)
  | drop hbase =>
    rw [toNat_of_below hbase]
    exact .one .dropTop
  | @select base next hbase hnext =>
    rw [toNat_of_below hbase, toNat_of_above hnext]
    -- The operand that stays may be replaced by the one above it, which is then dropped.
    have hchoose : Lifts (base.toNat + 2)
        ((Command.setFrom (.operand (-2)) top).ifIn .a (.exact 0)) (base.toNat + 2) :=
      .above (Command.isAbove_mono (Nat.le_add_left 2 _) (by decide))
    exact .append liftsAll_popA (.cons hchoose (.one .dropTop))
  | localGet hindex hnext =>
    rw [toNat_of_above hnext]
    exact .one (.pushFrom ⟨"frames", _, rfl⟩ rfl)
  | localSet hindex hbase =>
    rw [toNat_of_below hbase]
    exact .cons (.above (Command.isAbove_mono (k := 1) (Nat.le_add_left _ _) rfl)) (.one .dropTop)
  | localTee hindex hbase =>
    have hle : 1 ≤ height.toNat := by
      rw [toNat_of_below hbase]
      exact Nat.le_add_left _ _
    exact .one (.above (Command.isAbove_mono (k := 1) hle rfl))
  | @globalGet index _ _ _ hnext =>
    rw [toNat_of_above hnext]
    exact .one (.operation (.get index))
  | @globalSet index _ _ _ hbase =>
    rw [toNat_of_below hbase]
    exact .one (.operation (.set index))
  | load hm hbase hload hnext =>
    rw [toNat_of_below hbase, toNat_of_above hnext]
    exact liftsAll_of_lowerLoad hload
  | store hm hbase hstore =>
    rw [toNat_of_below hbase]
    exact liftsAll_of_lowerStore hstore
  | @memorySize memory _ _ _ hnext =>
    rw [toNat_of_above hnext]
    exact .one (.operation (.size memory))
  | @memoryGrow memory _ _ _ _ hbase hnext =>
    rw [toNat_of_below hbase, toNat_of_above hnext]
    exact .one (.operation (.grow memory))
  | i32Const hnext =>
    rw [toNat_of_above hnext]
    exact .one (.push _)
  | numeric hop hbase hnext =>
    rw [toNat_of_below hbase, toNat_of_above hnext]
    exact liftsAll_of_lowerNumeric hop

/-- A call takes as many operands as the function has parameters. -/
theorem lowerStraight_call {func : UInt32}
    (hi : lowerStraight scope height (.call func) = .ok (cs, height')) :
    ∃ entry base, scope.spaces.funcAt func = .ok entry ∧
      below "call" height (arityOf entry.type).params = .ok base ∧
      above base (arityOf entry.type).results = .ok height' ∧
      cs = callSequence (.func func) (arityOf entry.type).params.toNat := by
  cases lowerStraight_eq_ok.1 hi with
  | call hf hbase hnext => exact ⟨_, _, hf, hbase, hnext, rfl⟩

end Compile

end WasmPack
