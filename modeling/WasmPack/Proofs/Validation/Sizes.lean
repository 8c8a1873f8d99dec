/-
  WasmPack.Proofs.Validation.Sizes

  Small modules have low operand stacks.  Every instruction takes a byte at least,
  and so does every result of a type, in another section.  A body therefore puts no
  more values on the operand stack than the product of two numbers that add up to
  no more than the size of the module.
-/
import WasmPack.Proofs.Nesting.Limit
import WasmPack.Proofs.Validation.Module
import WasmPack.Proofs.Validation.Rises

namespace WasmPack

namespace Wasm

variable {c : Context} {n : Nat} {i : Instr} {counts : Counts} {m : Module} {type : BlockType}

/-- No type of the context has more results. -/
structure Context.AtMost (c : Context) (n : Nat) : Prop where
  types : ∀ type ∈ c.types, type.results.length ≤ n
  funcs : ∀ type ∈ c.funcs, type.results.length ≤ n
  one : 1 ≤ n

namespace Context.AtMost

variable (h : c.AtMost n)
include h

/-- Nothing but a construct puts more values on the operand stack. -/
theorem results_le (hcounts : c.counts? i = some counts) : counts.results ≤ n := by
  have hone := h.one
  have hindexed : ∀ {index : UInt32} {count : Nat} {found : Counts}, found.results ≤ n →
      indexed index count found = some counts → counts.results ≤ n := by
    intro index count found hle hsome
    obtain ⟨-, rfl⟩ := indexed_eq_some.1 hsome
    exact hle
  cases i with
  | call func =>
    obtain ⟨type, htype, rfl⟩ := Option.map_eq_some_iff.1 hcounts
    exact h.funcs type (List.mem_of_getElem? htype)
  | callIndirect index table =>
    obtain ⟨type, htype, rfl⟩ := Option.map_eq_some_iff.1 hcounts
    exact h.types type (List.mem_of_getElem? htype)
  | localGet | localTee | globalGet | load | memorySize | memoryGrow => exact hindexed hone hcounts
  | localSet | globalSet | store => exact hindexed (Nat.zero_le n) hcounts
  | nop | drop =>
    cases hcounts
    exact Nat.zero_le n
  | select | i32Const | i64Const | f32Const | f64Const | numeric =>
    cases hcounts
    exact hone
  | _ => cases hcounts

theorem resultsOf_le : c.resultsOf type ≤ n := by
  unfold Context.resultsOf
  cases hcounts : c.blockCounts? type with
  | none => exact Nat.zero_le n
  | some counts =>
    cases type with
    | empty =>
      cases hcounts
      exact Nat.zero_le n
    | value =>
      cases hcounts
      exact h.one
    | func index =>
      obtain ⟨type, htype, rfl⟩ := Option.map_eq_some_iff.1 hcounts
      exact h.types type (List.mem_of_getElem? htype)

/-- What a construct puts on the operand stack beside the code inside it fits a byte more. -/
theorem construct_le {k size total : Nat} (hk : k ≤ size * n) (hsize : size < total) :
    c.resultsOf type + k ≤ total * n := by
  calc c.resultsOf type + k ≤ n + size * n := Nat.add_le_add h.resultsOf_le hk
    _ = (size + 1) * n := by rw [Nat.succ_mul, Nat.add_comm]
    _ ≤ total * n := Nat.mul_le_mul_right n hsize

end Context.AtMost

/-- A module has only the types of its type section. -/
theorem Module.context_atMost {locals : Nat} (h : ∀ type ∈ m.types, type.results.length ≤ n)
    (hn : 1 ≤ n) : (m.context locals).AtMost n where
  types := h
  funcs type htype := by
    unfold Module.context at htype
    simp only [List.mem_append, List.mem_filterMap] at htype
    obtain ⟨i, -, hi⟩ | ⟨f, -, hf⟩ := htype
    · split at hi
      · exact h type (List.mem_of_getElem? hi)
      · cases hi
    · exact h type (List.mem_of_getElem? hf)
  one := hn

/-- A body has the results of a type, or a single one. -/
theorem Body.results_le {b : Body} (h : ∀ type ∈ m.types, type.results.length ≤ n) (hn : 1 ≤ n)
    (hb : b ∈ m.bodies) : b.results ≤ n := by
  unfold Module.bodies at hb
  simp only [List.mem_append, List.mem_map, List.mem_filterMap] at hb
  obtain (⟨f, -, hf⟩ | ⟨g, -, rfl⟩) | ⟨d, -, rfl⟩ := hb
  · obtain ⟨type, htype, rfl⟩ := Option.map_eq_some_iff.1 hf
    exact h type (List.mem_of_getElem? htype)
  · exact hn
  · exact hn

end Wasm

namespace Grammar

open Wasm

variable {c : Context} {n : Nat} {w : List UInt8} {m : Module}

/-! ## Expressions -/

theorem PlainForm.rise_le (hc : c.AtMost n) {i : Instr} (h : PlainForm w i) :
    c.riseOf i ≤ w.length * n := by
  have hrise : c.riseOf i = (c.counts? i).elim 0 Counts.results := by cases h <;> rfl
  have hlength : 1 ≤ w.length := by cases h <;> exact Nat.le_add_left 1 _
  have hone : n ≤ w.length * n := Nat.le_mul_of_pos_left n hlength
  rw [hrise]
  cases hcounts : c.counts? i with
  | none => exact Nat.zero_le _
  | some counts => exact (hc.results_le hcounts).trans hone

mutual

theorem InstrForm.rise_le (hc : c.AtMost n) {depth : Nat} {w : List UInt8} {i : Instr} :
    InstrForm depth w i → c.riseOf i ≤ w.length * n
  | .plain h => h.rise_le hc
  | .block _ _ hb | .loop _ _ hb => by
    rw [Context.riseOf]
    refine hc.construct_le (hb.rise_le hc) ?_
    simp only [List.length_cons, List.length_append]
    omega
  | .ifThen _ _ hf => by
    rw [Context.riseOf, Context.rise]
    refine hc.construct_le (hf.rise_le hc) ?_
    simp only [List.length_cons, List.length_append]
    omega
  | @InstrForm.ifElse _ t u v _ _ _ _ _ hf hs => by
    have harms := Nat.add_le_add (hf.rise_le hc) (hs.rise_le hc)
    rw [← Nat.add_mul] at harms
    rw [Context.riseOf, Nat.add_assoc]
    refine hc.construct_le harms ?_
    simp only [List.length_cons, List.length_append]
    omega

/-- The instructions of a body put no more values on the operand stack than a type has results for
    each byte. -/
theorem BodyForm.rise_le (hc : c.AtMost n) {depth : Nat} {w : List UInt8} {body : Expr} :
    BodyForm depth w body → c.rise body ≤ w.length * n
  | .nil => Nat.zero_le _
  | .cons head tail => by
    rw [Context.rise, List.length_append, Nat.add_mul]
    exact Nat.add_le_add (head.rise_le hc) (tail.rise_le hc)

end

/-! ## Types -/

/-- Items that are not empty are no more than their bytes. -/
theorem Items.length_le {α : Type} {item : Production α} {as : List α} (h : Items item w as)
    (hitem : ∀ v a, item v a → v ≠ []) : as.length ≤ w.length := by
  induction h with
  | nil => exact Nat.le_refl 0
  | cons head _ ih =>
    have := List.length_pos_iff.2 (hitem _ _ head)
    rw [List.length_append, List.length_cons]
    omega

/-- A type takes more bytes than it has results. -/
theorem FuncTypeForm.results_lt {type : FuncType} (h : FuncTypeForm w type) :
    type.results.length < w.length := by
  obtain @⟨t, u, _, _, results, htag, -, count, items, _, rfl, hcount, hitems, -⟩ := h
  have hle : results.length ≤ items.length := hitems.length_le fun _ _ hv =>
    Binary.Groups.ne_nil hv.1
  have hpos : 0 < t.length := List.length_pos_iff.2 (Binary.Groups.ne_nil htag.1)
  simp only [List.length_append]
  omega

/-! ## Modules -/

/-- A body puts no more values on the operand stack than results and instructions that take all the
    bytes of the module together would. -/
theorem ModuleForm.exists_ceiling_le (h : ModuleForm w m) : ∃ n k, n + k ≤ w.length ∧
    ∀ b ∈ m.bodies, b.ceiling m ≤ k * n := by
  obtain ⟨s, u, hlength, htypes, hbodies⟩ := h.apart
  have hresults : ∀ type ∈ m.types, type.results.length ≤ s.length + 1 := by
    intro type htype
    obtain ⟨v, hv, hform⟩ := htypes type htype
    have := hform.results_lt
    have := hv.length_le
    omega
  -- One more than the types have bytes: a constant puts a value there without any type.
  have hone : 1 ≤ s.length + 1 := Nat.le_add_left 1 _
  refine ⟨s.length + 1, u.length, by omega, fun b hb => ?_⟩
  obtain ⟨v, hv, code, rfl, hcode⟩ := hbodies b.code (List.mem_append_left _ (Compile.code_mem hb))
  have hatmost : (m.context b.locals).AtMost (s.length + 1) := Module.context_atMost hresults hone
  have hrise := hcode.rise_le hatmost
  have hlt : code.length < u.length := by
    have := hv.length_le
    rw [List.length_append, List.length_singleton] at this
    omega
  calc b.ceiling m ≤ (s.length + 1) + code.length * (s.length + 1) :=
        Nat.add_le_add (Body.results_le hresults hone hb) hrise
    _ = (code.length + 1) * (s.length + 1) := by rw [Nat.succ_mul, Nat.add_comm]
    _ ≤ u.length * (s.length + 1) := Nat.mul_le_mul_right _ hlt

/-- A product is largest for equal numbers. -/
theorem mul_lt_of_add_lt {k n : Nat} (h : n + k < 2 ^ 17) : k * n < 2 ^ 32 := by
  have : (n + k) * (n + k) ≤ (2 ^ 17 - 1) * (2 ^ 17 - 1) := Nat.mul_le_mul (by omega) (by omega)
  nlinarith [sq_nonneg ((n : Int) - k)]

end Grammar

namespace Wasm

/-- **Small modules.**  A module of less than 128 KiB has no body that could put 2³² values on the
    operand stack. -/
theorem Body.ceiling_lt {m : Module} {b : Body} {bytes : Array UInt8}
    (h : Binary.decode bytes = .ok m) (hsize : bytes.size < 2 ^ 17) (hb : b ∈ m.bodies) :
    b.ceiling m < 2 ^ 32 := by
  obtain ⟨n, k, hlength, hceiling⟩ := (Binary.moduleForm_of_decode h).exists_ceiling_le
  rw [Array.length_toList] at hlength
  exact Nat.lt_of_le_of_lt (hceiling b hb) (Grammar.mul_lt_of_add_lt (by omega))

end Wasm

end WasmPack
