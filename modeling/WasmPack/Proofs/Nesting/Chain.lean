/-
  WasmPack.Proofs.Nesting.Chain

  Constructs inside constructs.  A chain picks blocks, loops and conditionals out
  of an expression, each of them somewhere inside the one before; the depth of
  the expression is the length of its longest chain, and the grammar of modules
  has no chain longer than the limit.
-/
import WasmPack.Proofs.Grammar.Module
import WasmPack.Proofs.Validation.Supported

namespace WasmPack

namespace Wasm

/-- The lists of instructions inside a construct. -/
def Instr.bodies : Instr → List Expr
  | .block _ body | .loop _ body => [body]
  | .ifElse _ consequent alternative => [consequent, alternative]
  | _ => []

/-- An expression has so many constructs, each inside the one before, and in front of them and of
    the constructs around them stand only instructions with a property. -/
inductive Nested (P : Instr → Prop) : Nat → Expr → Prop where
  | nil (body : Expr) : Nested P 0 body
  | cons {front back body : Expr} {i : Instr} {n : Nat} (hfront : ∀ j ∈ front, P j)
      (hbody : body ∈ i.bodies) (h : Nested P n body) : Nested P (n + 1) (front ++ i :: back)
  /-- The construct around the next one need not be counted. -/
  | inside {front back body : Expr} {i : Instr} {n : Nat} (hfront : ∀ j ∈ front, P j)
      (hbody : body ∈ i.bodies) (h : Nested P n body) : Nested P n (front ++ i :: back)

/-- The expressions of a module, compiled or not. -/
def Module.expressions (m : Module) : List Expr := m.code ++ m.elems.map (·.offset)

variable {P : Instr → Prop} {i : Instr} {front back body : Expr} {n : Nat}

/-! ## Depth -/

theorem nesting_le_nestingOf : i.nesting ≤ nestingOf (front ++ i :: back) := by
  induction front with
  | nil => exact Nat.le_max_left ..
  | cons j front ih => exact ih.trans (Nat.le_max_right ..)

/-- A construct is deeper than what is inside it. -/
theorem nestingOf_lt_nesting (h : body ∈ i.bodies) : nestingOf body < i.nesting := by
  cases i with
  | block type body' =>
    obtain rfl := List.mem_singleton.1 h
    exact Nat.lt_succ_self _
  | loop type body' =>
    obtain rfl := List.mem_singleton.1 h
    exact Nat.lt_succ_self _
  | ifElse type consequent alternative =>
    obtain rfl | h := List.mem_cons.1 h
    · exact Nat.lt_succ_of_le (Nat.le_max_left ..)
    · obtain rfl := List.mem_singleton.1 h
      exact Nat.lt_succ_of_le (Nat.le_max_right ..)
  | _ => cases h

/-- No chain is longer than its expression is deep. -/
theorem Nested.le_nestingOf (h : Nested P n body) : n ≤ nestingOf body := by
  induction h with
  | nil => exact Nat.zero_le _
  | cons _ hbody _ ih =>
    exact (Nat.lt_of_le_of_lt ih (nestingOf_lt_nesting hbody)).trans_le nesting_le_nestingOf
  | inside _ hbody _ ih =>
    exact ih.trans ((nestingOf_lt_nesting hbody).le.trans nesting_le_nestingOf)

end Wasm

namespace Grammar

open Wasm

variable {w : List UInt8} {depth : Nat}

/-! ## The grammar -/

/-- What is spelled without a body has no construct. -/
theorem PlainForm.nesting_eq {i : Instr} (h : PlainForm w i) : i.nesting = 0 := by
  cases h <;> rfl

mutual

theorem InstrForm.nesting_le {depth : Nat} {w : List UInt8} {i : Instr} :
    InstrForm depth w i → depth ≤ maxNesting → depth + i.nesting ≤ maxNesting
  | .plain h, hdepth => by rwa [h.nesting_eq]
  | .block hd _ hb, _ | .loop hd _ hb, _ => by
    have := hb.nesting_le hd
    simp only [Instr.nesting]
    omega
  | .ifThen hd _ hf, _ => by
    have := hf.nesting_le hd
    simp only [Instr.nesting, nestingOf]
    omega
  | .ifElse hd _ hf hs, _ => by
    have := hf.nesting_le hd
    have := hs.nesting_le hd
    simp only [Instr.nesting]
    omega

/-- Constructs are not nested deeper than the limit, those around included. -/
theorem BodyForm.nesting_le {depth : Nat} {w : List UInt8} {body : Expr} :
    BodyForm depth w body → depth ≤ maxNesting → depth + nestingOf body ≤ maxNesting
  | .nil, hdepth => hdepth
  | .cons head tail, hdepth => by
    have := head.nesting_le hdepth
    have := tail.nesting_le hdepth
    simp only [nestingOf]
    omega

end

theorem ExprForm.nesting_le {body : Expr} (h : ExprForm 0 w body) :
    nestingOf body ≤ maxNesting := by
  obtain ⟨u, -, hbody⟩ := h
  have hle := hbody.nesting_le (Nat.zero_le _)
  rwa [Nat.zero_add] at hle

/-! ## Modules -/

section Sections

variable {α : Type} {item : Production α} {as : List α} {a : α} {id : UInt8}

theorem Items.exists_of_mem (h : Items item w as) (ha : a ∈ as) : ∃ v, v <:+: w ∧ item v a := by
  induction h with
  | nil => cases ha
  | @cons u v _ _ head _ ih =>
    obtain rfl | ha := List.mem_cons.1 ha
    · exact ⟨u, (List.prefix_append u v).isInfix, head⟩
    · obtain ⟨v', hv, hitem⟩ := ih ha
      exact ⟨v', hv.trans (List.suffix_append u v).isInfix, hitem⟩

/-- Every item of a section is spelled by some part of it. -/
theorem SectionForm.exists_of_mem (h : SectionForm id [] (Vec item) w as) (ha : a ∈ as) :
    ∃ v, v <:+: w ∧ item v a := by
  cases h with
  | absent => cases ha
  | @present _ customs _ h _ =>
    obtain ⟨size, -, -, rfl, -, ⟨count, items, -, rfl, -, hitems, -⟩, -⟩ := h
    obtain ⟨v, hv, hitem⟩ := hitems.exists_of_mem ha
    exact ⟨v, hv.trans ⟨id :: (size ++ count), customs, by simp⟩, hitem⟩

end Sections

theorem exists_code_of_mem_zipFuncs {types : List UInt32} {codes : List Binary.Code} {f : Func}
    (h : f ∈ zipFuncs types codes) : ∃ code ∈ codes, f.body = code.body := by
  obtain ⟨k, hk, rfl⟩ := List.mem_iff_getElem.1 h
  have hcodes : k < codes.length := by
    have := hk
    rw [zipFuncs, List.length_zipWith] at this
    omega
  exact ⟨codes[k], List.getElem_mem hcodes, by simp [zipFuncs]⟩

/-- Types and expressions are spelled apart from each other: the types in a section of their own,
    and the expressions somewhere behind it. -/
theorem ModuleForm.apart {m : Module} (h : ModuleForm w m) : ∃ s u : List UInt8,
    s.length + u.length < w.length ∧ (∀ type ∈ m.types, ∃ v, v <:+: s ∧ FuncTypeForm v type) ∧
      ∀ body ∈ m.expressions, ∃ v, v <:+: u ∧ ExprForm 0 v body := by
  cases h with
  | @mk c s₁ s₂ s₃ s₄ s₅ s₆ s₇ s₈ s₉ s₁₀ s₁₁ _ _ _ _ _ _ _ _ _ _ _ _ htypes _ _ _ _ hglobals _ _
      helems hcodes hdata _ =>
    refine ⟨s₁, s₂ ++ (s₃ ++ (s₄ ++ (s₅ ++ (s₆ ++ (s₇ ++ (s₈ ++ (s₉ ++ (s₁₀ ++ s₁₁)))))))), ?_,
      fun type htype => htypes.exists_of_mem htype, fun body hbody => ?_⟩
    · simp only [List.length_append, preamble, List.length_cons]
      omega
    unfold Module.expressions Module.code at hbody
    simp only [List.mem_append, List.mem_map] at hbody
    obtain ((⟨f, hf, rfl⟩ | ⟨g, hg, rfl⟩) | ⟨d, hd, rfl⟩) | ⟨e, he, rfl⟩ := hbody
    · obtain ⟨code, hcode, hbody⟩ := exists_code_of_mem_zipFuncs hf
      obtain ⟨-, hv, size, _, -, rfl, -, ⟨@⟨locals, v, _, _, -, hb⟩, -⟩⟩ := hcodes.exists_of_mem hcode
      have hin : v <:+: size ++ (locals ++ v) := ⟨size ++ locals, [], by simp⟩
      exact ⟨v, (hin.trans hv).trans
        ⟨s₂ ++ s₃ ++ s₄ ++ s₅ ++ s₆ ++ s₇ ++ s₈ ++ s₉, s₁₁, by simp⟩, hbody ▸ hb⟩
    · obtain ⟨-, hv, @⟨type, v, _, _, -, hi⟩⟩ := hglobals.exists_of_mem hg
      exact ⟨v, ((List.suffix_append type v).isInfix.trans hv).trans
        ⟨s₂ ++ s₃ ++ s₄ ++ s₅, s₇ ++ s₈ ++ s₉ ++ s₁₀ ++ s₁₁, by simp⟩, hi⟩
    · obtain ⟨-, hv, @⟨u, v, x, _, _, _, -, ho, -⟩⟩ := hdata.exists_of_mem hd
      have hin : v <:+: u ++ v ++ x := ⟨u, x, rfl⟩
      exact ⟨v, (hin.trans hv).trans
        ⟨s₂ ++ s₃ ++ s₄ ++ s₅ ++ s₆ ++ s₇ ++ s₈ ++ s₉ ++ s₁₀, [], by simp⟩, ho⟩
    · obtain ⟨-, hv, @⟨u, v, x, _, _, _, -, ho, -⟩⟩ := helems.exists_of_mem he
      have hin : v <:+: u ++ v ++ x := ⟨u, x, rfl⟩
      exact ⟨v, (hin.trans hv).trans
        ⟨s₂ ++ s₃ ++ s₄ ++ s₅ ++ s₆ ++ s₇ ++ s₈, s₁₀ ++ s₁₁, by simp⟩, ho⟩

/-- **Depth of expressions.** The expressions of a module are not nested deeper than the limit. -/
theorem ModuleForm.nesting_le {m : Module} (h : ModuleForm w m) {body : Expr}
    (hbody : body ∈ m.expressions) : nestingOf body ≤ maxNesting := by
  obtain ⟨_, _, -, -, hspelled⟩ := h.apart
  obtain ⟨_, -, hbody⟩ := hspelled body hbody
  exact hbody.nesting_le

end Grammar

end WasmPack
