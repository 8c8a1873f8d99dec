/-
  WasmPack.Proofs.Operands.Drops

  What a branch drops.  It leaves the operands up to the height of its label and
  those that it brings, and removes what lies between them one by one: each time
  the operand right below those that it brings.
-/
import WasmPack.Proofs.Calls.Leads
import WasmPack.Proofs.Operands.Branches
import WasmPack.Proofs.Operators.Registers

namespace WasmPack.Machine

open Compile
open Nbt (entries)

variable {code : Code} {tags : TagTable} {ns mnemonic : String} {cs : List Command} {s : Store}
  {σ : State} {Q : State → Prop} {low mid carried : List Nbt} {x : Nbt} {i : Int32}
  {height : UInt32} {target : Nat} {l : Label}

/-! ## Dropping below the topmost operands -/

/-- The operand right below the topmost ones is removed by its index. -/
theorem remove_below (hi : i.toInt = -((carried.length : Int) + 1)) :
    Nbt.remove [.index i] (entries (low ++ x :: carried)) = (some (), entries (low ++ carried)) := by
  have hlength : (low ++ x :: carried).length = low.length + (carried.length + 1) := by simp
  have hp : Nbt.position? i (low ++ x :: carried).length = some low.length := by
    rw [hlength, Nbt.position?_of_neg hi (by omega)]
    congr 1
    omega
  have hremove := Nbt.remove_listOf (f := id) hp
  rwa [List.eraseIdx_append_of_length_le (Nat.le_refl _), Nat.sub_self] at hremove

/-- The operand below the topmost ones is dropped. -/
theorem steps_dropBelow (hi : i.toInt = -((carried.length : Int) + 1))
    (h : σ.operands = some (entries (low ++ x :: carried))) :
    Steps tags ns (.remove (.operand i)) σ [] (σ.setOperands (low ++ carried)) :=
  .plain (.remove _) (performs_remove (k := "stack") rfl (List.cons_ne_nil _ _) h (remove_below hi))

/-- Dropped one by one, the operands below the topmost ones go from the last of them down. -/
theorem Computes.dropsBelow (hi : i.toInt = -((carried.length : Int) + 1))
    (h : σ.operands = some (entries (low ++ mid ++ carried)))
    (hrest : Computes code ns cs (σ.setOperands (low ++ carried)) Q) :
    Computes code ns (List.replicate mid.length (.remove (.operand i)) ++ cs) σ Q := by
  induction mid using List.reverseRecOn generalizing σ with
  | nil =>
    rw [List.append_nil] at h
    rwa [State.setOperands, State.setCell_eq_self h] at hrest
  | append_singleton mid x ih =>
    rw [List.append_assoc, List.append_assoc, List.singleton_append, ← List.append_assoc] at h
    rw [List.length_append, List.length_singleton, List.replicate_succ, List.cons_append]
    apply Computes.plain (steps_dropBelow hi h)
    apply ih (State.operands_setOperands _ _)
    rwa [State.setOperands_setOperands]

/-! ## Branches -/

theorem branch_eq_error (h : l.full < 2 ^ 32) :
    branch mnemonic height target l = .error (.stackUnderflow mnemonic) ↔
      height.toNat < l.full := by
  constructor
  · intro herror
    refine Nat.lt_of_not_le fun hle => ?_
    cases herror.symm.trans (branch_eq_ok.2 ⟨hle, rfl⟩)
  · intro hlt
    have hkeep : above l.height l.arity = .ok (l.height + l.arity) := above_eq_ok.2 ⟨h, rfl⟩
    have hbelow : below mnemonic height (l.height + l.arity) = .error (.stackUnderflow mnemonic) :=
      below_eq_error.2 ⟨by rwa [toNat_keep h], rfl⟩
    exact except_bind_eq_error.2 (.inr ⟨_, hkeep, except_bind_eq_error.2 (.inl hbelow)⟩)

/-- The commands of a branch drop what lies between its label and what it brings. -/
theorem computes_branchCommands (hle : l.full ≤ height.toNat) (harity : l.arity.toNat < 2 ^ 31)
    (hmid : mid.length = height.toNat - l.full) (hcarried : carried.length = l.arity.toNat)
    (h : σ.operands = some (entries (low ++ mid ++ carried))) :
    Computes code ns (branchCommands height target l) σ
      (· = (σ.setOperands (low ++ carried)).setReg .brDepth (Int32.ofNat target)) := by
  have hexcess : (height - (l.height + l.arity)).toNat = mid.length :=
    (toNat_excess hle).trans hmid.symm
  have hindex : (-l.arity.toInt32 - 1).toInt = -((carried.length : Int) + 1) := by
    rw [toInt_dropIndex harity, hcarried]
    omega
  rw [branchCommands, hexcess]
  exact .dropsBelow hindex h (.set (.nil rfl))

/-- **What a branch drops.**  A branch finds too few operands exactly where there are fewer than its
    label lies on and takes, if the sum of the two is a number of 32 bits.  Where there are enough,
    its commands run to their end, whatever lies on the stack: of the operands above the label they
    leave those that the branch brings, in their order, on those below, tell the depth of the label,
    and change nothing else.  They find an operand by counting from the top of the stack, so a
    signed number has to do for what the branch brings. -/
theorem branch_drops_between (mnemonic : String) (height : UInt32) (target : Nat) (l : Label) :
    (l.full < 2 ^ 32 →
      (branch mnemonic height target l = .error (.stackUnderflow mnemonic) ↔
        height.toNat < l.full)) ∧
    (l.full ≤ height.toNat → ∃ cs, branch mnemonic height target l = .ok cs ∧
      (l.arity.toNat < 2 ^ 31 →
        ∀ (code : Code) (ns : String) (s : Store) (σ : State) (low mid carried : List Nbt),
          s.Models σ → σ.operands = some (entries (low ++ mid ++ carried)) →
          mid.length = height.toNat - l.full → carried.length = l.arity.toNat →
          Completes code ns cs s
            (· = (σ.setOperands (low ++ carried)).setReg .brDepth (Int32.ofNat target)))) := by
  refine ⟨branch_eq_error, fun hle => ⟨branchCommands height target l, ?_, ?_⟩⟩
  · exact branch_eq_ok.2 ⟨hle, rfl⟩
  · intro harity code ns s σ low mid carried hs hσ hmid hcarried
    obtain ⟨τ, hruns, hτ⟩ := computes_branchCommands hle harity hmid hcarried hσ
    exact hruns.completes hs hτ

/-- Two of five operands lie between a label on two of them and the one that a branch to it
    brings. -/
theorem branch_drops_between_two : ∃ cs, branch "br" 5 3 ⟨2, 1⟩ = .ok cs ∧
    ∀ (s : Store) (σ : State), s.Models σ →
      σ.operands = some (entries [.int 7, .int 8, .int 9, .int 10, .int 11]) →
      Completes {} "demo" cs s
        (· = (σ.setOperands [.int 7, .int 8, .int 11]).setReg .brDepth 3) := by
  obtain ⟨cs, hcs, hcompletes⟩ := (branch_drops_between "br" 5 3 ⟨2, 1⟩).2 (by decide)
  exact ⟨cs, hcs, fun s σ hs hσ => hcompletes (by decide) {} "demo" s σ [.int 7, .int 8]
    [.int 9, .int 10] [.int 11] hs hσ rfl rfl⟩

/-- A label that lies as high as can be and takes an operand: the sum overflows, and a branch
    without any operands is not refused for that. -/
theorem branch_overflows : branch "br" 0 0 ⟨4294967295, 1⟩ = .error .overflow ∧
    ¬ (branch "br" 0 0 ⟨4294967295, 1⟩ = .error (.stackUnderflow "br") ↔
      (0 : UInt32).toNat < Label.full ⟨4294967295, 1⟩) := by
  have hbranch : branch "br" 0 0 ⟨4294967295, 1⟩ = .error .overflow := by decide
  refine ⟨hbranch, fun hiff => ?_⟩
  have hrefused := hiff.2 (by decide)
  cases hbranch.symm.trans hrefused

end WasmPack.Machine
