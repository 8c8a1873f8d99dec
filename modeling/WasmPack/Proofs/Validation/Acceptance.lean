/-
  WasmPack.Proofs.Validation.Acceptance

  Code generation accepts every body that validation accepts, and reckons with
  the same heights in live code.

  Validation knows one lowest height, that of the innermost construct, where code
  generation knows that of every label.  Heights only grow from the outside
  inward, so what validation finds above the innermost construct is above every
  label.
-/
import Mathlib.Algebra.Ring.Nat
import WasmPack.Proofs.Compile.Contents
import WasmPack.Proofs.Validation.Inversion
import WasmPack.Proofs.Validation.Supported
import WasmPack.Proofs.Validation.Visits

namespace WasmPack.Compile

open Wasm

variable {scope : Scope} {c : Context} {arities : List Nat} {labels : List Label}
  {depth base : Nat} {height results : UInt32} {i : Instr} {rest : List Instr} {pool : Pool}

/-! ## Heights -/

theorem toNat_sub_ofNat {n : Nat} (h : n ≤ height.toNat) :
    (height - UInt32.ofNat n).toNat = height.toNat - n := by
  have hn : (UInt32.ofNat n).toNat = n :=
    UInt32.toNat_ofNat_of_lt' (Nat.lt_of_le_of_lt h height.toNat_lt)
  rw [UInt32.toNat_sub_of_le _ _ (by rw [UInt32.le_iff_toNat_le, hn]; exact h), hn]

theorem toNat_add_ofNat {n : Nat} (h : height.toNat + n < 2 ^ 32) :
    (height + UInt32.ofNat n).toNat = height.toNat + n := by
  rw [UInt32.toNat_add, UInt32.toNat_ofNat_of_lt' (by simp only [UInt32.size]; omega)]
  omega

theorem below_ofNat {mnemonic : String} {n : Nat} (h : n ≤ height.toNat) :
    below mnemonic height (UInt32.ofNat n) = .ok (height - UInt32.ofNat n) := by
  refine below_eq_ok.2 ⟨?_, rfl⟩
  rw [UInt32.le_iff_toNat_le,
    UInt32.toNat_ofNat_of_lt' (Nat.lt_of_le_of_lt h height.toNat_lt)]
  exact h

theorem toNat_ofNat_le (n : Nat) : (UInt32.ofNat n).toNat ≤ n := Nat.mod_le n _

theorem above_ofNat {n : Nat} (h : height.toNat + n < 2 ^ 32) :
    above height (UInt32.ofNat n) = .ok (height + UInt32.ofNat n) :=
  above_eq_ok.2 ⟨Nat.lt_of_le_of_lt (Nat.add_le_add_left (toNat_ofNat_le n) _) h, rfl⟩

/-! ## What indices mean -/

/-- Indices mean the same for code generation as for validation. -/
structure Agrees (scope : Scope) (c : Context) : Prop where
  types : scope.spaces.types.toList = c.types
  funcs : scope.spaces.funcs.toList.map FuncEntry.type = c.funcs
  memories : scope.spaces.memories.size = c.memories
  globals : scope.spaces.globals.size = c.globals
  locals : scope.locals = c.locals

theorem exists_entryAt {α : Type} {kind : IndexKind} {entries : Array α} {index : UInt32}
    (h : index.toNat < entries.size) : ∃ entry, entryAt kind entries index = .ok entry :=
  ⟨entries[index.toNat], entryAt_eq_ok.2 (Array.getElem?_eq_getElem h)⟩

/-- The arity of numbers of values. -/
def arityOfCounts (counts : Counts) : Arity :=
  ⟨UInt32.ofNat counts.params, UInt32.ofNat counts.results⟩

namespace Agrees

variable (h : Agrees scope c)
include h

theorem blockArity {type : BlockType} {counts : Counts} (hs : type.isSupported = true)
    (hcounts : c.blockCounts? type = some counts) :
    scope.spaces.blockArity type = .ok (arityOfCounts counts) := by
  cases type with
  | empty =>
    cases hcounts
    rfl
  | value type =>
    cases hcounts
    obtain rfl : type = .i32 := of_decide_eq_true hs
    rfl
  | func index =>
    obtain ⟨type, htype, rfl⟩ := Option.map_eq_some_iff.1 hcounts
    rw [← h.types, Array.getElem?_toList] at htype
    exact except_bind_eq_ok.2 ⟨type, entryAt_eq_ok.2 htype, rfl⟩

theorem funcAt {func : UInt32} {counts : Counts}
    (hcounts : c.funcs[func.toNat]?.map FuncType.counts = some counts) :
    ∃ entry, scope.spaces.funcAt func = .ok entry ∧ arityOf entry.type = arityOfCounts counts := by
  obtain ⟨type, htype, rfl⟩ := Option.map_eq_some_iff.1 hcounts
  rw [← h.funcs, List.getElem?_map] at htype
  obtain ⟨entry, hentry, rfl⟩ := Option.map_eq_some_iff.1 htype
  exact ⟨entry, entryAt_eq_ok.2 (by rwa [Array.getElem?_toList] at hentry), rfl⟩

theorem memoryAt {index : UInt32} (hi : index.toNat < c.memories) :
    ∃ entry, scope.spaces.memoryAt index = .ok entry :=
  exists_entryAt (h.memories ▸ hi)

theorem globalAt {index : UInt32} (hi : index.toNat < c.globals) :
    ∃ entry, scope.spaces.globalAt index = .ok entry :=
  exists_entryAt (h.globals ▸ hi)

end Agrees

/-- An instruction that neither branches nor encloses others. -/
theorem lowerStraight_of_counts (h : Agrees scope c) {counts : Counts} {i : Instr}
    (hs : i.isSupported = true) (hcounts : c.counts? i = some counts)
    (hle : counts.params ≤ height.toNat)
    (hlt : height.toNat - counts.params + counts.results < 2 ^ 32) :
    ∃ cs, lowerStraight scope height i =
      .ok (cs, height - UInt32.ofNat counts.params + UInt32.ofNat counts.results) := by
  have hbelow : ∀ mnemonic, below mnemonic height (UInt32.ofNat counts.params) =
      .ok (height - UInt32.ofNat counts.params) := fun _ => below_ofNat hle
  have habove : above (height - UInt32.ofNat counts.params) (UInt32.ofNat counts.results) =
      .ok (height - UInt32.ofNat counts.params + UInt32.ofNat counts.results) :=
    above_ofNat (by rwa [toNat_sub_ofNat hle])
  -- A count of zero leaves no trace in the height.
  have hnone : ∀ x : UInt32, x - UInt32.ofNat 0 = x ∧ x + UInt32.ofNat 0 = x := by
    intro x
    exact ⟨UInt32.sub_zero x, UInt32.add_zero x⟩
  cases i with
  | nop =>
    cases hcounts
    rw [(hnone _).1, (hnone _).2]
    exact ⟨_, lowerStraight_eq_ok.2 .nop⟩
  | call func =>
    obtain ⟨entry, hentry, harity⟩ := h.funcAt hcounts
    -- The counts are those of the function's type, whose arity stands in the commands.
    refine ⟨callSequence (.func func) (arityOf entry.type).params.toNat,
      except_bind_eq_ok.2 ⟨entry, hentry, ?_⟩⟩
    rw [harity]
    exact except_bind_eq_ok.2 ⟨_, hbelow _, except_bind_eq_ok.2 ⟨_, habove, rfl⟩⟩
  | drop =>
    cases hcounts
    rw [(hnone _).2]
    exact ⟨_, lowerStraight_eq_ok.2 (.drop (hbelow _))⟩
  | select =>
    cases hcounts
    exact ⟨_, lowerStraight_eq_ok.2 (.select (hbelow _) habove)⟩
  | localGet index =>
    obtain ⟨hi, rfl⟩ := indexed_eq_some.1 hcounts
    rw [(hnone _).1] at habove ⊢
    exact ⟨_, lowerStraight_eq_ok.2 (.localGet (h.locals ▸ hi) habove)⟩
  | localSet index =>
    obtain ⟨hi, rfl⟩ := indexed_eq_some.1 hcounts
    rw [(hnone _).2]
    exact ⟨_, lowerStraight_eq_ok.2 (.localSet (h.locals ▸ hi) (hbelow _))⟩
  | localTee index =>
    obtain ⟨hi, rfl⟩ := indexed_eq_some.1 hcounts
    rw [UInt32.sub_add_cancel]
    exact ⟨_, lowerStraight_eq_ok.2 (.localTee (h.locals ▸ hi) (hbelow _))⟩
  | globalGet index =>
    obtain ⟨hi, rfl⟩ := indexed_eq_some.1 hcounts
    obtain ⟨entry, hentry⟩ := h.globalAt hi
    rw [(hnone _).1] at habove ⊢
    exact ⟨_, lowerStraight_eq_ok.2 (.globalGet hentry habove)⟩
  | globalSet index =>
    obtain ⟨hi, rfl⟩ := indexed_eq_some.1 hcounts
    obtain ⟨entry, hentry⟩ := h.globalAt hi
    rw [(hnone _).2]
    exact ⟨_, lowerStraight_eq_ok.2 (.globalSet hentry (hbelow _))⟩
  | load op arg =>
    obtain ⟨hi, rfl⟩ := indexed_eq_some.1 hcounts
    obtain ⟨entry, hentry⟩ := h.memoryAt hi
    obtain ⟨cs, hcs⟩ := exists_lowerLoad hs arg
    exact ⟨cs, lowerStraight_eq_ok.2 (.load hentry (hbelow _) hcs habove)⟩
  | store op arg =>
    obtain ⟨hi, rfl⟩ := indexed_eq_some.1 hcounts
    obtain ⟨entry, hentry⟩ := h.memoryAt hi
    obtain ⟨cs, hcs⟩ := exists_lowerStore hs arg
    rw [(hnone _).2]
    exact ⟨cs, lowerStraight_eq_ok.2 (.store hentry (hbelow _) hcs)⟩
  | memorySize memory =>
    obtain ⟨hi, rfl⟩ := indexed_eq_some.1 hcounts
    obtain ⟨entry, hentry⟩ := h.memoryAt hi
    rw [(hnone _).1] at habove ⊢
    exact ⟨_, lowerStraight_eq_ok.2 (.memorySize hentry habove)⟩
  | memoryGrow memory =>
    obtain ⟨hi, rfl⟩ := indexed_eq_some.1 hcounts
    obtain ⟨entry, hentry⟩ := h.memoryAt hi
    exact ⟨_, lowerStraight_eq_ok.2 (.memoryGrow hentry (hbelow _) habove)⟩
  | i32Const value =>
    cases hcounts
    rw [(hnone _).1] at habove ⊢
    exact ⟨_, lowerStraight_eq_ok.2 (.i32Const habove)⟩
  | numeric op =>
    cases hcounts
    obtain ⟨lowered, hop⟩ := exists_lowerNumeric (of_decide_eq_true hs)
    exact ⟨_, lowerStraight_eq_ok.2 (.numeric hop (hbelow _) habove)⟩
  | callIndirect _ _ | i64Const _ | f32Const _ | f64Const _ => cases hs
  | unreachable | block _ _ | loop _ _ | ifElse _ _ _ | br _ | brIf _ | brTable _ _ | ret =>
    cases hcounts

/-! ## What labels mean -/

/-- Labels bring the same values for code generation as for validation, and none of them is above
    the lowest height of the innermost construct. -/
structure Labelled (labels : List Label) (arities : List Nat) (depth base : Nat) : Prop where
  length_arities : arities.length = depth + 1
  length_labels : labels.length = depth + 1
  each : ∀ n arity, arities[n]? = some arity → ∃ l, labels[depth - n]? = some l ∧
    l.arity = UInt32.ofNat arity ∧ l.height.toNat ≤ base

namespace Labelled

/-- A body has one label. -/
theorem single (arity : Nat) : Labelled [⟨0, UInt32.ofNat arity⟩] [arity] 0 0 where
  length_arities := rfl
  length_labels := rfl
  each n found hn := by
    cases n with
    | zero =>
      cases hn
      exact ⟨_, rfl, rfl, Nat.le_refl _⟩
    | succ n => cases hn

variable (h : Labelled labels arities depth base)
include h

/-- A construct adds its own label. -/
theorem push {low : UInt32} (hlow : base ≤ low.toNat) (arity : Nat) :
    Labelled (labels ++ [⟨low, UInt32.ofNat arity⟩]) (arity :: arities) (depth + 1) low.toNat where
  length_arities := by rw [List.length_cons, h.length_arities]
  length_labels := by rw [List.length_append, h.length_labels, List.length_singleton]
  each n found hn := by
    cases n with
    | zero =>
      cases hn
      refine ⟨⟨low, UInt32.ofNat arity⟩, ?_, rfl, Nat.le_refl _⟩
      rw [Nat.sub_zero, ← h.length_labels]
      exact List.getElem?_concat_length
    | succ n =>
      obtain ⟨l, hl, harity, hle⟩ := h.each n found hn
      refine ⟨l, ?_, harity, Nat.le_trans hle hlow⟩
      rw [Nat.succ_sub_succ, List.getElem?_append_left (List.getElem?_eq_some_iff.1 hl).1]
      exact hl

/-- A branch that validation accepts is one that can be set off. -/
theorem exists_labelAt {label : UInt32} {arity : Nat} (harity : arities[label.toNat]? = some arity)
    (hle : base + arity ≤ height.toNat) :
    ∃ target l, labelAt labels depth label = .ok (target, l) ∧ l.full ≤ height.toNat := by
  obtain ⟨l, hl, hl', hbase⟩ := h.each _ _ harity
  have hlt : label.toNat < arities.length := (List.getElem?_eq_some_iff.1 harity).1
  refine ⟨depth - label.toNat, l, labelAt_eq_ok.2 ⟨by have := h.length_arities; omega, rfl, hl⟩, ?_⟩
  have harity := toNat_ofNat_le arity
  rw [Label.full, hl']
  omega

/-- A return is a branch to the body. -/
theorem ret (hdepth : depth ≤ maxNesting) :
    arities[(UInt32.ofNat depth).toNat]? = arities.getLast? := by
  have hmax : maxNesting = 512 := rfl
  rw [UInt32.toNat_ofNat_of_lt' (by simp only [UInt32.size]; omega), List.getLast?_eq_getElem?,
    h.length_arities]
  rfl

end Labelled

/-! ## Branches -/

theorem exists_isOne (cs : List Command) (pool : Pool) : ∃ one pool', IsOne pool cs one pool' := by
  match cs with
  | [] => exact ⟨_, _, .none⟩
  | [c] => exact ⟨_, _, .one c⟩
  | c :: d :: cs => exact ⟨_, _, .fragment (by simp)⟩

theorem exists_branchIf (mnemonic : String) {label : UInt32}
    (h : ∃ target l, labelAt labels depth label = .ok (target, l) ∧ l.full ≤ height.toNat)
    (condition : List Modifier) (pool : Pool) :
    ∃ jump pool', branchIf mnemonic depth labels height label condition pool = .ok (jump, pool') := by
  obtain ⟨target, l, hl, hle⟩ := h
  obtain ⟨one, pool', hone⟩ := exists_isOne (branchCommands height target l) pool
  exact ⟨(_, target), pool', branchIf_eq_ok.2 ⟨l, one, hl, hle, hone, rfl⟩⟩

theorem exists_branchCases (mnemonic : String) {table : List UInt32}
    (h : ∀ label ∈ table, ∃ target l, labelAt labels depth label = .ok (target, l) ∧
      l.full ≤ height.toNat) (n : Nat) (pool : Pool) :
    ∃ jumps pool', branchCases mnemonic depth labels height n table pool = .ok (jumps, pool') := by
  induction table generalizing n pool with
  | nil => exact ⟨_, _, rfl⟩
  | cons label table ih =>
    obtain ⟨jump, pool₁, hjump⟩ := exists_branchIf mnemonic (h label (.head _))
      [.ifIn .a (.exact (Int32.ofNat n))] pool
    obtain ⟨jumps, pool₂, hjumps⟩ := ih (fun l hl => h l (.tail _ hl)) (n + 1) pool₁
    exact ⟨_, pool₂, branchCases_cons.2 ⟨_, _, _, _, pool₁, hjump, hjumps, rfl, rfl⟩⟩

/-! ## Where code generation may stand -/

/-- Code generation stands where validation accepts what is left. -/
structure Admissible (scope : Scope) (c : Context) (arities : List Nat) (base : Nat) (p : Point) :
    Prop where
  agrees : Agrees scope c
  labelled : Labelled p.labels arities p.depth base
  valid : ∃ s, validateList c arities base ⟨p.height.toNat, false⟩ p.code = some s
  supported : Instr.allLive Instr.isSupported p.code = true
  nesting : p.depth + nestingOf p.code ≤ maxNesting
  bounded : ∀ pos k, heightAt? c arities base p.height.toNat p.code pos = some k → k < 2 ^ 32

/-- Code generation may go on behind an instruction that leads there. -/
theorem Admissible.behind
    (h : Admissible scope c arities base ⟨depth, labels, height, results, i :: rest⟩) {next : UInt32}
    (hnext : validateInstr c arities base ⟨height.toNat, false⟩ i = some ⟨next.toNat, false⟩) :
    Admissible scope c arities base ⟨depth, labels, next, results, rest⟩ where
  agrees := h.agrees
  labelled := h.labelled
  valid := by
    obtain ⟨s, hs⟩ := h.valid
    obtain ⟨t, ht, hs⟩ := validateList_cons.1 hs
    cases hnext.symm.trans ht
    exact ⟨s, hs⟩
  supported := (Instr.allLive_cons.1 h.supported).2 (dead_of_validate hnext).symm
  nesting := by
    have := h.nesting
    simp only [nestingOf] at this ⊢
    omega
  bounded pos k hk := by
    refine h.bounded (.behind :: pos) k ?_
    simp only [heightAt?, hnext]
    exact hk

/-- Code generation may stand in front of the code of a construct. -/
theorem Admissible.enter {p : Point} (h : Admissible scope c arities base p) {counts : Counts}
    {low : UInt32} {bound : Nat} {body : List Instr} {turn : Turn}
    (hlow : base ≤ low.toNat) (hcloses : Closes c (bound :: arities) low.toNat height.toNat
      counts.results body)
    (hsupported : Instr.allLive Instr.isSupported body = true)
    (hnesting : nestingOf body < nestingOf p.code)
    (hheight : ∀ pos, heightAt? c arities base p.height.toNat p.code (turn :: pos) =
      heightAt? c (bound :: arities) low.toNat height.toNat body pos) :
    Admissible scope c (bound :: arities) low.toNat
      ⟨p.depth + 1, p.labels ++ [⟨low, UInt32.ofNat bound⟩], height, UInt32.ofNat counts.results,
        body⟩ where
  agrees := h.agrees
  labelled := h.labelled.push hlow bound
  valid := let ⟨s, hs, _⟩ := hcloses; ⟨s, hs⟩
  supported := hsupported
  nesting := by
    have := h.nesting
    show p.depth + 1 + nestingOf body ≤ maxNesting
    omega
  bounded pos k hk := h.bounded (turn :: pos) k ((hheight pos).trans hk)

/-- The height behind an instruction is one of those that are bounded. -/
theorem Admissible.lt
    (h : Admissible scope c arities base ⟨depth, labels, height, results, i :: rest⟩) {k : Nat}
    (hk : validateInstr c arities base ⟨height.toNat, false⟩ i = some ⟨k, false⟩) : k < 2 ^ 32 := by
  refine h.bounded [.behind] k ?_
  simp only [heightAt?, hk]
  rfl

theorem Admissible.depth_le {p : Point} (h : Admissible scope c arities base p) :
    p.depth ≤ maxNesting := Nat.le_of_add_right_le h.nesting

/-- The instruction in front of which code generation stands is valid. -/
theorem Admissible.validate
    (h : Admissible scope c arities base ⟨depth, labels, height, results, i :: rest⟩) :
    ∃ s, validateInstr c arities base ⟨height.toNat, false⟩ i = some s := by
  obtain ⟨s, hs⟩ := h.valid
  obtain ⟨t, ht, -⟩ := validateList_cons.1 hs
  exact ⟨t, ht⟩

/-- Blocks and loops, by the values that a branch to them brings. -/
theorem Admissible.construct {bound : Counts → Nat} {type : BlockType} {body : List Instr}
    (h : Admissible scope c arities base ⟨depth, labels, height, results, i :: rest⟩)
    (hvalidate : ∀ s, validateInstr c arities base ⟨height.toNat, false⟩ i = some s →
      ∃ counts, c.blockCounts? type = some counts ∧ base + counts.params ≤ height.toNat ∧
        Closes c (bound counts :: arities) (height.toNat - counts.params) height.toNat
          counts.results body ∧
        s = ⟨height.toNat - counts.params + counts.results, false⟩)
    (hheight : ∀ counts pos, c.blockCounts? type = some counts →
      base + counts.params ≤ height.toNat →
      heightAt? c arities base height.toNat (i :: rest) (.inside :: pos) =
        heightAt? c (bound counts :: arities) (height.toNat - counts.params) height.toNat body pos)
    (htype : type.isSupported = true) (hbody : Instr.allLive Instr.isSupported body = true)
    (hnesting : nestingOf body < i.nesting) :
    ∃ counts low next, scope.spaces.blockArity type = .ok (arityOfCounts counts) ∧
      (∀ mnemonic, below mnemonic height (UInt32.ofNat counts.params) = .ok low) ∧
      above low (UInt32.ofNat counts.results) = .ok next ∧
      validateInstr c arities base ⟨height.toNat, false⟩ i =
        some ⟨next.toNat, false⟩ ∧
      Admissible scope c (bound counts :: arities) low.toNat ⟨depth + 1,
        labels ++ [⟨low, UInt32.ofNat (bound counts)⟩], height, UInt32.ofNat counts.results, body⟩ ∧
      ∀ pos, heightAt? c arities base height.toNat (i :: rest) (.inside :: pos) =
        heightAt? c (bound counts :: arities) low.toNat height.toNat body pos := by
  obtain ⟨s, hs⟩ := h.validate
  obtain ⟨counts, hcounts, hle, hcloses, rfl⟩ := hvalidate s hs
  have hlow : (height - UInt32.ofNat counts.params).toNat = height.toNat - counts.params :=
    toNat_sub_ofNat (by omega)
  have hat : ∀ pos, heightAt? c arities base height.toNat (i :: rest) (.inside :: pos) =
      heightAt? c (bound counts :: arities) (height - UInt32.ofNat counts.params).toNat
        height.toNat body pos := by
    intro pos
    rw [hheight counts pos hcounts hle, hlow]
  have hnext : (height - UInt32.ofNat counts.params).toNat + counts.results < 2 ^ 32 := by
    rw [hlow]
    exact h.lt hs
  refine ⟨counts, height - UInt32.ofNat counts.params, _, h.agrees.blockArity htype hcounts,
    fun _ => below_ofNat (by omega), above_ofNat hnext, ?_, ?_, hat⟩
  · rw [hs, toNat_add_ofNat hnext, hlow]
  · exact h.enter (by omega) (hlow ▸ hcloses) hbody
      (Nat.lt_of_lt_of_le hnesting (Nat.le_max_left _ _)) hat

variable {type : BlockType} {body consequent alternative : List Instr}

theorem Admissible.block (h : Admissible scope c arities base
      ⟨depth, labels, height, results, .block type body :: rest⟩) :
    ∃ counts low next, scope.spaces.blockArity type = .ok (arityOfCounts counts) ∧
      (∀ mnemonic, below mnemonic height (UInt32.ofNat counts.params) = .ok low) ∧
      above low (UInt32.ofNat counts.results) = .ok next ∧
      validateInstr c arities base ⟨height.toNat, false⟩ (.block type body) =
        some ⟨next.toNat, false⟩ ∧
      Admissible scope c (counts.results :: arities) low.toNat ⟨depth + 1,
        labels ++ [⟨low, UInt32.ofNat counts.results⟩], height, UInt32.ofNat counts.results, body⟩ ∧
      ∀ pos, heightAt? c arities base height.toNat (.block type body :: rest) (.inside :: pos) =
        heightAt? c (counts.results :: arities) low.toNat height.toNat body pos := by
  have hlive := Bool.and_eq_true_iff.1 (Instr.allLive_cons.1 h.supported).1
  exact h.construct (fun _ => of_validate_block) (fun _ _ => heightAt?_block) hlive.1 hlive.2
    (Nat.lt_succ_self _)

theorem Admissible.loop (h : Admissible scope c arities base
      ⟨depth, labels, height, results, .loop type body :: rest⟩) :
    ∃ counts low next, scope.spaces.blockArity type = .ok (arityOfCounts counts) ∧
      (∀ mnemonic, below mnemonic height (UInt32.ofNat counts.params) = .ok low) ∧
      above low (UInt32.ofNat counts.results) = .ok next ∧
      validateInstr c arities base ⟨height.toNat, false⟩ (.loop type body) =
        some ⟨next.toNat, false⟩ ∧
      Admissible scope c (counts.params :: arities) low.toNat ⟨depth + 1,
        labels ++ [⟨low, UInt32.ofNat counts.params⟩], height, UInt32.ofNat counts.results, body⟩ ∧
      ∀ pos, heightAt? c arities base height.toNat (.loop type body :: rest) (.inside :: pos) =
        heightAt? c (counts.params :: arities) low.toNat height.toNat body pos := by
  have hlive := Bool.and_eq_true_iff.1 (Instr.allLive_cons.1 h.supported).1
  exact h.construct (fun _ => of_validate_loop) (fun _ _ => heightAt?_loop) hlive.1 hlive.2
    (Nat.lt_succ_self _)

theorem Admissible.ifElse (h : Admissible scope c arities base
      ⟨depth, labels, height, results, .ifElse type consequent alternative :: rest⟩) :
    ∃ counts top low next, scope.spaces.blockArity type = .ok (arityOfCounts counts) ∧
      below "if" height 1 = .ok top ∧
      below "if" top (UInt32.ofNat counts.params) = .ok low ∧
      above low (UInt32.ofNat counts.results) = .ok next ∧
      validateInstr c arities base ⟨height.toNat, false⟩ (.ifElse type consequent alternative) =
        some ⟨next.toNat, false⟩ ∧
      ∀ turn ≠ Turn.behind,
        Admissible scope c (counts.results :: arities) low.toNat ⟨depth + 1,
          labels ++ [⟨low, UInt32.ofNat counts.results⟩], top, UInt32.ofNat counts.results,
          if turn = .inside then consequent else alternative⟩ ∧
        ∀ pos, heightAt? c arities base height.toNat (.ifElse type consequent alternative :: rest)
            (turn :: pos) =
          heightAt? c (counts.results :: arities) low.toNat top.toNat
            (if turn = .inside then consequent else alternative) pos := by
  have hlive := Bool.and_eq_true_iff.1 (Instr.allLive_cons.1 h.supported).1
  have harms := Bool.and_eq_true_iff.1 hlive.2
  obtain ⟨s, hs⟩ := h.validate
  obtain ⟨counts, hcounts, hle, hcloses, rfl⟩ := of_validate_ifElse hs
  -- No height wraps: the condition and the parameters are there, and the results fit.
  have htop : (height - UInt32.ofNat 1).toNat = height.toNat - 1 := toNat_sub_ofNat (by omega)
  have hlow : (height - UInt32.ofNat 1 - UInt32.ofNat counts.params).toNat =
      height.toNat - 1 - counts.params := by
    rw [toNat_sub_ofNat (by rw [htop]; omega), htop]
  have hnext : (height - UInt32.ofNat 1 - UInt32.ofNat counts.params).toNat + counts.results <
      2 ^ 32 := by
    rw [hlow]
    exact h.lt hs
  refine ⟨counts, height - UInt32.ofNat 1, height - UInt32.ofNat 1 - UInt32.ofNat counts.params, _,
    h.agrees.blockArity hlive.1 hcounts, below_ofNat (n := 1) (by omega),
    below_ofNat (by rw [htop]; omega), above_ofNat hnext, ?_, ?_⟩
  · rw [hs, toNat_add_ofNat hnext, hlow]
  -- Both arms begin where the condition has been taken.
  · intro turn hturn
    have hat : ∀ pos, heightAt? c arities base height.toNat
        (.ifElse type consequent alternative :: rest) (turn :: pos) =
          heightAt? c (counts.results :: arities)
            (height - UInt32.ofNat 1 - UInt32.ofNat counts.params).toNat
            (height - UInt32.ofNat 1).toNat
            (if turn = .inside then consequent else alternative) pos := by
      intro pos
      rw [heightAt?_ifElse hcounts hle hturn, hlow, htop]
    refine ⟨h.enter (by omega) ?_ ?_ ?_ hat, hat⟩
    · rw [hlow, htop]
      refine hcloses _ ?_
      split
      · exact .head _
      · exact .tail _ (.head _)
    · split
      · exact harms.1
      · exact harms.2
    · simp only [nestingOf, Instr.nesting]
      split <;> omega

/-! ## Acceptance -/

/-- Behind an instruction, the height that code generation reckons with is that of validation. -/
def Shows (flow : Flow) (s : Option Operands) : Prop :=
  flow.height?.map UInt32.toNat = s.bind Operands.live?

theorem shows_next {flow : Flow} {next : UInt32} {s : Option Operands}
    (hflow : flow.height? = some next) (hs : s = some ⟨next.toNat, false⟩) : Shows flow s := by
  rw [Shows, hflow, hs]
  rfl

theorem of_shows {flow : Flow} {next : UInt32} {s : Option Operands} (h : Shows flow s)
    (hflow : flow.height? = some next) : s = some ⟨next.toNat, false⟩ := by
  rw [Shows, hflow] at h
  obtain ⟨⟨k, dead⟩, rfl, hk⟩ := Option.bind_eq_some_iff.1 h.symm
  cases dead with
  | true => cases hk
  | false =>
    cases hk
    rfl

theorem shows_stop {flow : Flow} {s : Option Operands} (hflow : flow.height? = none)
    (hs : s = some ⟨base, true⟩) : Shows flow s := by
  rw [Shows, hflow, hs]
  rfl

theorem exists_lowerInstr_straight (hi : i.isStraight = true)
    (h : Admissible scope c arities base ⟨depth, labels, height, results, i :: rest⟩) (pool : Pool) :
    ∃ step pool', lowerInstr scope depth labels height i pool = .ok (step, pool') ∧
      Shows step.flow (validateInstr c arities base ⟨height.toNat, false⟩ i) := by
  obtain ⟨s, hs⟩ := h.validate
  obtain ⟨counts, hcounts, hle, rfl⟩ := (validateInstr_straight hi).1 hs
  have hparams : counts.params ≤ height.toNat := by omega
  obtain ⟨cs, hcs⟩ := lowerStraight_of_counts h.agrees
    (Instr.self_of_liveAll (Instr.allLive_cons.1 h.supported).1) hcounts hparams (h.lt hs)
  have hsub : (height - UInt32.ofNat counts.params).toNat = height.toNat - counts.params :=
    toNat_sub_ofNat hparams
  have hnext : (height - UInt32.ofNat counts.params + UInt32.ofNat counts.results).toNat =
      height.toNat - counts.params + counts.results := by
    rw [toNat_add_ofNat (by rw [hsub]; exact h.lt hs), hsub]
  exact ⟨_, pool, (lowerInstr_straight hi).2 ⟨cs, _, hcs, rfl, rfl⟩,
    shows_next rfl (by rw [hs, hnext])⟩

theorem exists_lowerInstr_br {label : UInt32}
    (h : Admissible scope c arities base ⟨depth, labels, height, results, .br label :: rest⟩)
    (pool : Pool) :
    ∃ step pool', lowerInstr scope depth labels height (.br label) pool = .ok (step, pool') ∧
      Shows step.flow (validateInstr c arities base ⟨height.toNat, false⟩ (.br label)) := by
  obtain ⟨s, hs⟩ := h.validate
  obtain ⟨arity, harity, hle, rfl⟩ := validateInstr_br.1 hs
  obtain ⟨target, l, hl, hle'⟩ := h.labelled.exists_labelAt harity hle
  exact ⟨_, pool, lowerInstr_br.2 ⟨lowerBr_eq_ok.2 ⟨target, l, hl, hle', rfl⟩, rfl⟩,
    shows_stop rfl hs⟩

theorem exists_lowerInstr_ret
    (h : Admissible scope c arities base ⟨depth, labels, height, results, .ret :: rest⟩)
    (pool : Pool) :
    ∃ step pool', lowerInstr scope depth labels height .ret pool = .ok (step, pool') ∧
      Shows step.flow (validateInstr c arities base ⟨height.toNat, false⟩ .ret) := by
  obtain ⟨s, hs⟩ := h.validate
  obtain ⟨arity, harity, hle, rfl⟩ := validateInstr_ret.1 hs
  obtain ⟨target, l, hl, hle'⟩ :=
    h.labelled.exists_labelAt ((h.labelled.ret h.depth_le).trans harity) hle
  exact ⟨_, pool, lowerInstr_ret.2 ⟨lowerBr_eq_ok.2 ⟨target, l, hl, hle', rfl⟩, rfl⟩,
    shows_stop rfl hs⟩

theorem exists_lowerInstr_brIf {label : UInt32}
    (h : Admissible scope c arities base ⟨depth, labels, height, results, .brIf label :: rest⟩)
    (pool : Pool) :
    ∃ step pool', lowerInstr scope depth labels height (.brIf label) pool = .ok (step, pool') ∧
      Shows step.flow (validateInstr c arities base ⟨height.toNat, false⟩ (.brIf label)) := by
  obtain ⟨s, hs⟩ := h.validate
  obtain ⟨arity, harity, hle, rfl⟩ := of_validate_brIf hs
  have htop : (height - 1).toNat = height.toNat - 1 := toNat_sub_ofNat (n := 1) (by omega)
  have hbranch : base + arity ≤ (height - 1).toNat := by omega
  obtain ⟨⟨jump, target⟩, pool', hjump⟩ := exists_branchIf "br_if"
    (h.labelled.exists_labelAt harity hbranch) [.unlessIn .a (.exact 0)] pool
  exact ⟨_, pool', (congrFun lowerInstr_brIf pool).trans
    (lowerBrIf_eq_ok.2 ⟨target, jump, UInt32.le_iff_toNat_le.2 (Nat.le_of_add_left_le hle), hjump,
      rfl⟩), shows_next rfl (by rw [hs, htop])⟩

theorem exists_lowerInstr_brTable {table : List UInt32} {default : UInt32}
    (h : Admissible scope c arities base
      ⟨depth, labels, height, results, .brTable table default :: rest⟩) (pool : Pool) :
    ∃ step pool',
      lowerInstr scope depth labels height (.brTable table default) pool = .ok (step, pool') ∧
      Shows step.flow
        (validateInstr c arities base ⟨height.toNat, false⟩ (.brTable table default)) := by
  obtain ⟨s, hs⟩ := h.validate
  obtain ⟨arity, harity, hle, rfl⟩ := of_validate_brTable hs
  have htop : (height - 1).toNat = height.toNat - 1 := toNat_sub_ofNat (n := 1) (by omega)
  have hlabel : ∀ label ∈ default :: table, ∃ target l,
      labelAt labels depth label = .ok (target, l) ∧ l.full ≤ (height - 1).toNat :=
    fun label hl => h.labelled.exists_labelAt (harity label hl) (by omega)
  obtain ⟨⟨jumps, least⟩, pool₁, hjumps⟩ :=
    exists_branchCases "br_table" (fun label hl => hlabel label (.tail _ hl)) 0 pool
  obtain ⟨⟨jump, target⟩, pool', hjump⟩ :=
    exists_branchIf "br_table" (hlabel default (.head _)) (outsideTable table) pool₁
  exact ⟨_, pool', (congrFun lowerInstr_brTable pool).trans (lowerBrTable_eq_ok.2
    ⟨jumps, least, jump, target, pool₁, UInt32.le_iff_toNat_le.2 (Nat.le_of_add_left_le hle),
      hjumps, hjump, rfl⟩), shows_stop rfl hs⟩

mutual

/-- Code generation accepts an instruction, and finds the height behind it. -/
theorem exists_lowerInstr : ∀ (i : Instr) {arities : List Nat} {base depth : Nat}
    {labels : List Label} {height results : UInt32} {rest : List Instr},
    Admissible scope c arities base ⟨depth, labels, height, results, i :: rest⟩ → ∀ pool : Pool,
    ∃ step pool', lowerInstr scope depth labels height i pool = .ok (step, pool') ∧
      Shows step.flow (validateInstr c arities base ⟨height.toNat, false⟩ i)
  | .unreachable => fun _ pool =>
    ⟨_, pool, lowerInstr_unreachable.2 ⟨rfl, rfl⟩, shows_stop rfl rfl⟩
  | .block type body => fun h pool => by
    obtain ⟨counts, low, next, harity, hlow, habove, hnext, hbody, -⟩ := h.block
    obtain ⟨hle, rfl⟩ := below_eq_ok.1 (hlow "block")
    obtain ⟨b, pool', hb⟩ := exists_lowerList body hbody pool
    exact ⟨_, pool', lowerInstr_block.2 ⟨_, b, next, harity, hle, hbody.depth_le, hb, habove, rfl⟩,
      shows_next height?_escape hnext⟩
  | .loop type body => fun h pool => by
    obtain ⟨counts, low, next, harity, hlow, habove, hnext, hbody, -⟩ := h.loop
    obtain ⟨hle, rfl⟩ := below_eq_ok.1 (hlow "loop")
    obtain ⟨b, pool₁, hb⟩ := exists_lowerList body hbody pool
    -- Making fragments never fails: what can be refused has been checked before.
    obtain ⟨⟨step, pool'⟩, hstep⟩ := exists_lowerLoop _ b _ pool₁
    exact ⟨step, pool', lowerInstr_loop.2
      ⟨_, b, next, pool₁, harity, hle, hbody.depth_le, hb, habove, hstep⟩,
      shows_next (height?_of_lowerLoop hstep) hnext⟩
  | .ifElse type consequent alternative => fun h pool => by
    obtain ⟨counts, top, low, next, harity, htop, hlow, habove, hnext, harms⟩ := h.ifElse
    obtain ⟨hone, rfl⟩ := below_eq_ok.1 htop
    obtain ⟨hle, rfl⟩ := below_eq_ok.1 hlow
    have hfirst := (harms .inside (by decide)).1
    obtain ⟨first, pool₁, hb⟩ := exists_lowerList consequent hfirst pool
    obtain ⟨second, pool₂, hb'⟩ :=
      exists_lowerList alternative (harms .otherwise (by decide)).1 pool₁
    obtain ⟨one, pool₃, hone'⟩ := exists_isOne first.commands pool₂
    obtain ⟨other, pool', hother⟩ := exists_isOne second.commands pool₃
    exact ⟨_, pool', lowerInstr_ifElse.2 ⟨_, first, second, next, pool₁, pool₂, one, other, pool₃,
      harity, hone, hle, hfirst.depth_le, hb, hb', hone', hother, habove, rfl⟩,
      shows_next height?_escape hnext⟩
  | .br _ => fun h pool => exists_lowerInstr_br h pool
  | .brIf _ => fun h pool => exists_lowerInstr_brIf h pool
  | .brTable _ _ => fun h pool => exists_lowerInstr_brTable h pool
  | .ret => fun h pool => exists_lowerInstr_ret h pool
  | .nop | .call _ | .callIndirect _ _ | .drop | .select | .localGet _ | .localSet _ | .localTee _
  | .globalGet _ | .globalSet _ | .load _ _ | .store _ _ | .memorySize _ | .memoryGrow _
  | .i32Const _ | .i64Const _ | .f32Const _ | .f64Const _ | .numeric _ => fun h pool =>
    exists_lowerInstr_straight rfl h pool
termination_by structural i => i

/-- Code generation accepts a list of instructions. -/
theorem exists_lowerList : ∀ (body : List Instr) {arities : List Nat} {base depth : Nat}
    {labels : List Label} {height results : UInt32},
    Admissible scope c arities base ⟨depth, labels, height, results, body⟩ → ∀ pool : Pool,
    ∃ b pool', lowerList scope depth labels height body pool = .ok (b, pool')
  | [] => fun _ pool => ⟨_, pool, lowerList_nil.2 ⟨rfl, rfl⟩⟩
  | i :: rest => fun h pool => by
    obtain ⟨step, pool₁, hstep, hshows⟩ := exists_lowerInstr i h pool
    have hrest : ∀ next, step.flow.height? = some next → ∀ pool, ∃ b pool',
        lowerList scope _ _ next rest pool = .ok (b, pool') :=
      fun next hnext => exists_lowerList rest (h.behind (of_shows hshows hnext))
    cases hflow : step.flow with
    | next height =>
      obtain ⟨b, pool', hb⟩ := hrest height (by rw [hflow]; rfl) pool₁
      exact ⟨_, pool', lowerList_cons.2 ⟨step, pool₁, hstep, .next hflow hb⟩⟩
    | guarded height target guard =>
      by_cases hnil : rest = []
      · exact ⟨_, pool₁, lowerList_cons.2 ⟨step, pool₁, hstep, .last hflow hnil⟩⟩
      · obtain ⟨b, pool', hb⟩ := hrest height (by rw [hflow]; rfl) (pool₁.push [])
        exact ⟨_, _, lowerList_cons.2 ⟨step, pool₁, hstep, .guarded hflow hnil hb⟩⟩
    | stop target => exact ⟨_, pool₁, lowerList_cons.2 ⟨step, pool₁, hstep, .stop hflow⟩⟩
termination_by structural body => body

end

/-! ## Heights -/

variable {pos : Position} {p q : Point} {k : Nat}

theorem heightAt?_behind {next : Nat}
    (h : validateInstr c arities base ⟨k, false⟩ i = some ⟨next, false⟩) :
    heightAt? c arities base k (i :: rest) (.behind :: pos) =
      heightAt? c arities base next rest pos := by
  simp only [heightAt?, h]
  rfl

/-- Where code generation comes to, validation has the height that it reckons with. -/
theorem heightAt?_of_visits (hv : Visits scope p pos q) (h : Admissible scope c arities base p) :
    heightAt? c arities base p.height.toNat p.code pos = some q.height.toNat := by
  induction hv generalizing arities base with
  | here p =>
    cases p with
    | mk depth labels height results code => cases code <;> rfl
  | behind hstep hnext _ ih =>
    obtain ⟨step', pool', hstep', hshows⟩ := exists_lowerInstr _ h _
    cases hstep.symm.trans hstep'
    -- The height at which the lowering goes on is that of the validation.
    have hvalidate := of_shows hshows hnext
    rw [heightAt?_behind hvalidate]
    exact ih (h.behind hvalidate)
  | block harity hbase _ ih =>
    obtain ⟨counts, low, next, harity', hlow, -, -, hbody, hat⟩ := h.block
    cases harity.symm.trans harity'
    cases hbase.symm.trans (hlow _)
    rw [hat]
    exact ih hbody
  | loop harity hbase _ ih =>
    obtain ⟨counts, low, next, harity', hlow, -, -, hbody, hat⟩ := h.loop
    cases harity.symm.trans harity'
    cases hbase.symm.trans (hlow _)
    rw [hat]
    exact ih hbody
  | ifElse harity htop hbase hturn _ ih =>
    obtain ⟨counts, top, low, next, harity', htop', hlow, -, -, harms⟩ := h.ifElse
    cases harity.symm.trans harity'
    cases htop.symm.trans htop'
    cases hbase.symm.trans hlow
    rw [(harms _ hturn).2]
    exact ih (harms _ hturn).1

theorem exists_visits_arm {turn : Turn} (h : Admissible scope c arities base
      ⟨depth, labels, height, results, .ifElse type consequent alternative :: rest⟩)
    (hturn : turn ≠ .behind)
    (ih : ∀ {arities base p}, Admissible scope c arities base p →
      heightAt? c arities base p.height.toNat p.code pos = some k → ∃ q, Visits scope p pos q)
    (hk : heightAt? c arities base height.toNat (.ifElse type consequent alternative :: rest)
      (turn :: pos) = some k) :
    ∃ q, Visits scope ⟨depth, labels, height, results, .ifElse type consequent alternative :: rest⟩
      (turn :: pos) q := by
  obtain ⟨counts, top, low, next, harity, htop, hlow, -, -, harms⟩ := h.ifElse
  obtain ⟨harm, hat⟩ := harms turn hturn
  obtain ⟨q, hq⟩ := ih harm ((hat pos).symm.trans hk)
  exact ⟨q, .ifElse harity htop hlow hturn hq⟩

/-- Code generation comes to every place in live code. -/
theorem exists_visits (h : Admissible scope c arities base p)
    (hk : heightAt? c arities base p.height.toNat p.code pos = some k) :
    ∃ q, Visits scope p pos q := by
  induction pos generalizing arities base p with
  | nil => exact ⟨p, .here p⟩
  | cons turn pos ih =>
    obtain ⟨depth, labels, height, results, code⟩ := p
    cases code with
    | nil => cases turn <;> cases hk
    | cons i rest =>
      cases turn with
      | behind =>
        obtain ⟨s, hs, hk⟩ := Option.bind_eq_some_iff.1 hk
        obtain ⟨next, hnext, hk⟩ := Option.bind_eq_some_iff.1 hk
        -- The code of `i` may be lowered with any pool, so the empty one does.
        obtain ⟨step, pool', hstep, hshows⟩ := exists_lowerInstr i h #[]
        have hflow : step.flow.height?.map UInt32.toNat = some next := by
          rw [hshows, hs, Option.bind_some, hnext]
        obtain ⟨height', hheight', rfl⟩ := Option.map_eq_some_iff.1 hflow
        obtain ⟨q, hq⟩ := ih (h.behind (of_shows hshows hheight')) hk
        exact ⟨q, .behind hstep hheight' hq⟩
      | inside =>
        cases i with
        | block type body =>
          obtain ⟨counts, low, next, harity, hlow, -, -, hbody, hat⟩ := h.block
          obtain ⟨q, hq⟩ := ih hbody ((hat pos).symm.trans hk)
          exact ⟨q, .block harity (hlow _) hq⟩
        | loop type body =>
          obtain ⟨counts, low, next, harity, hlow, -, -, hbody, hat⟩ := h.loop
          obtain ⟨q, hq⟩ := ih hbody ((hat pos).symm.trans hk)
          exact ⟨q, .loop harity (hlow _) hq⟩
        | ifElse type consequent alternative => exact exists_visits_arm h (by decide) ih hk
        | _ => cases hk
      | otherwise =>
        cases i with
        | ifElse type consequent alternative => exact exists_visits_arm h (by decide) ih hk
        | _ => cases hk

/-- The heights of live code are those that code generation reckons with. -/
theorem visits_iff (h : Admissible scope c arities base p) :
    (∃ q, Visits scope p pos q ∧ q.height.toNat = k) ↔
      heightAt? c arities base p.height.toNat p.code pos = some k := by
  constructor
  · rintro ⟨q, hq, rfl⟩
    exact heightAt?_of_visits hq h
  · intro hk
    obtain ⟨q, hq⟩ := exists_visits h hk
    exact ⟨q, hq, Option.some.inj ((heightAt?_of_visits hq h).symm.trans hk)⟩

end WasmPack.Compile
