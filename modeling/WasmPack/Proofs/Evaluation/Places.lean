/-
  WasmPack.Proofs.Evaluation.Places

  Where evaluation stands in the body of a function, and where code generation
  stands there: the operand stack is as high as validation says, every number
  fits a signed one, and so they stay on the way through the body.
-/
import WasmPack.Proofs.Evaluation.Rules
import WasmPack.Proofs.Validation.Exact
import WasmPack.Proofs.Validation.Module

namespace WasmPack

namespace Wasm

/-- A branch table is not too long for signed numbers. -/
def Instr.tableFits : Instr → Bool
  | .brTable table _ => table.length ≤ 2 ^ 31
  | _ => true

/-- A module whose numbers fit where code generation uses signed ones. -/
structure Module.Fits (m : Module) : Prop where
  heights : Compile.HeightsBelow m (2 ^ 31)
  params : ∀ type ∈ m.types, type.params.length ≤ 2 ^ 31
  locals : ∀ b ∈ m.bodies, b.locals ≤ 2 ^ 31
  globals : m.globals.length ≤ 2 ^ 31
  tables : m.allLive Instr.tableFits = true

end Wasm

namespace Wasm.Outcome

variable {o : Outcome} {depth n : Nat}

/-- The construct that a branch goes to, counted from the inside outward, if there are `depth`
    constructs inside the body of the function. -/
def label? (depth : Nat) : Outcome → Option Nat
  | next => none
  | branch n => some n
  | ret => some depth

/-- Behind a construct, a branch that goes on leads to the same place. -/
theorem label?_behind (h : o.label? (depth + 1) = some (n + 1)) :
    o.behind.label? depth = some n := by
  cases o with
  | next => cases h
  | branch k =>
    cases h
    rfl
  | ret =>
    cases h
    rfl

/-- A branch that goes to the innermost construct ends there. -/
theorem eq_branch_zero (h : o.label? (depth + 1) = some 0) : o = .branch 0 := by
  match o, h with
  | .branch _, rfl => rfl

/-- What a construct leaves, by what is left of its own operands. -/
theorem leaves_eq {arity : Nat} {xs ys : List Int32} : o.leaves arity xs ys =
    if o.behind = .next then xs ++ (if o = .branch 0 then ys.rtake arity else ys)
      else if o = .branch 0 then ys.rtake arity else ys := by
  match o with
  | .next | .branch 0 | .branch (n + 1) | .ret => rfl

end Wasm.Outcome

namespace Compile

open Wasm

variable {m : Module} {c : Context} {scope : Scope} {p : Point} {st : Stand} {depth k arity : Nat}
  {labels : List Label} {height results : UInt32} {i : Instr} {rest body : List Instr}
  {pool pool' : Pool} {step : Step} {type : BlockType} {counts : Counts} {v v' : Values}
  {outer xs args ls gs : List Int32} {o : Outcome}

/-! ## Numbers that fit -/

/-- Code generation tracks validation, and all that is ahead fits signed numbers. -/
structure Fits (c : Context) (p : Point) (st : Stand) : Prop extends Tracks c p st where
  low : ∀ pos k, heightAt? c st.arities st.base st.height p.code pos = some k → k < 2 ^ 31
  tables : Instr.allLive Instr.tableFits p.code = true
  nesting : p.depth ≤ maxNesting

namespace Fits

theorem lt (h : Fits c p st) : st.height < 2 ^ 31 :=
  h.low [] _ (by cases p.code <;> rfl)

/-- Behind an instruction. -/
theorem behind (h : Fits c ⟨depth, labels, height, results, i :: rest⟩ st)
    (hk : validateInstr c st.arities st.base ⟨st.height, false⟩ i = some ⟨k, false⟩) :
    Fits c ⟨depth, labels, UInt32.ofNat k, results, rest⟩ ⟨k, st.bounds⟩ where
  toTracks := h.toTracks.behind hk
  low pos n hn := h.low (.behind :: pos) n ((heightAt?_behind hk).trans hn)
  tables := (Instr.allLive_cons.1 h.tables).2 (dead_of_validate hk).symm
  nesting := h.nesting

/-- In front of the code of a construct. -/
theorem enter {top : Nat} {turn : Turn} (h : Fits c p st) (hle : st.base + counts.params ≤ top)
    (hcloses : Closes c (arity :: st.arities) (top - counts.params) top counts.results body)
    (hheight : ∀ pos, heightAt? c st.arities st.base st.height p.code (turn :: pos) =
      heightAt? c (arity :: st.arities) (top - counts.params) top body pos)
    (htables : Instr.allLive Instr.tableFits body = true) (hnesting : p.depth + 1 ≤ maxNesting) :
    Fits c ⟨p.depth + 1,
        p.labels ++ [⟨UInt32.ofNat (top - counts.params), UInt32.ofNat arity⟩], UInt32.ofNat top,
        results, body⟩ (st.enter top counts.params arity) where
  toTracks := h.toTracks.enter hle hcloses
  low pos n hn := h.low (turn :: pos) n ((hheight pos).trans hn)
  tables := htables
  nesting := hnesting

end Fits

/-! ## Evaluation at a place -/

/-- Evaluation stands at a point with these values; the operands of the constructs around it are
    `outer`. -/
structure Placed (m : Module) (p : Point) (st : Stand) (outer : List Int32) (v : Values) : Prop where
  fits : Fits (m.context v.locals.length) p st
  outer : outer.length = st.base
  height : st.height = st.base + v.stack.length
  locals : v.locals.length ≤ 2 ^ 31
  globals : v.globals.length ≤ 2 ^ 31

namespace Placed

/-- In front of a body of the module. -/
theorem start {b : Body} (hm : m.Valid) (hfits : m.Fits) (hb : b ∈ m.bodies)
    (hls : ls.length = b.locals) (hgs : gs.length = m.globals.length) :
    Placed m (start b) ⟨0, [⟨0, b.results⟩]⟩ [] ⟨[], ls, gs⟩ where
  fits := {
    toTracks := hls ▸ Tracks.start (hm.bodies b hb)
    low := hls ▸ hfits.heights b hb
    tables := List.all_eq_true.1 hfits.tables _ (code_mem hb)
    nesting := Nat.zero_le _ }
  outer := rfl
  height := rfl
  locals := hls ▸ hfits.locals b hb
  globals := hgs ▸ hfits.globals

/-- The height that code generation reckons with is the true one. -/
theorem height_eq (h : Placed m p st outer v) :
    p.height = UInt32.ofNat (outer.length + v.stack.length) ∧
      outer.length + v.stack.length < 2 ^ 31 := by
  rw [h.outer, ← h.height]
  exact ⟨h.fits.height, h.fits.lt⟩

/-- The height below the topmost operand. -/
theorem height_below {x : Int32} (h : Placed m p st outer ⟨xs ++ [x], ls, gs⟩) :
    p.height - 1 = UInt32.ofNat (outer.length + xs.length) ∧ outer.length + xs.length < 2 ^ 31 := by
  obtain ⟨hheight, hlt⟩ := h.height_eq
  rw [List.length_append, List.length_singleton, ← Nat.add_assoc] at hheight hlt
  refine ⟨?_, by omega⟩
  rw [hheight, UInt32.ofNat_add]
  exact UInt32.add_sub_cancel _ _

/-- No construct around the code begins above its operands. -/
theorem base_le (h : Placed m p st outer v) : ∀ b ∈ st.bounds, b.base ≤ outer.length := by
  rw [h.outer]
  exact h.fits.nested

theorem arities_ne_nil (h : Placed m p st outer v) : st.arities ≠ [] := by
  intro hnil
  have hdepth := h.fits.depth
  rw [List.map_eq_nil_iff.1 hnil] at hdepth
  cases hdepth

/-- What evaluation of an instruction keeps to. -/
theorem keeps (hm : m.Valid) (himports : m.imports = [])
    (h : Placed m ⟨depth, labels, height, results, i :: rest⟩ st outer v)
    (he : Evaluates m (.instr i) v o v') : o.Brings st.arities v'.stack ∧
      (o = .next → validateInstr (m.context v.locals.length) st.arities st.base
        ⟨st.height, false⟩ i = some ⟨st.base + v'.stack.length, false⟩) := by
  obtain ⟨s, hs⟩ := h.fits.validate
  have hs' := hs
  rw [h.height] at hs'
  obtain ⟨hbrings, hnext⟩ := he.keeps hm himports h.arities_ne_nil hs'
  exact ⟨hbrings, fun ho => hnext ho ▸ hs⟩

/-- Where an instruction branches, there is a construct, and what the branch brings. -/
theorem exists_bound (hm : m.Valid) (himports : m.imports = [])
    (h : Placed m ⟨depth, labels, height, results, i :: rest⟩ st outer v)
    (he : Evaluates m (.instr i) v o v') (hlabel : o.label? depth = some k) :
    ∃ b, st.bounds[k]? = some b ∧ b.base ≤ outer.length ∧ b.arity ≤ v'.stack.length := by
  have hbrings := (h.keeps hm himports he).1
  have hdepth : st.bounds.length = depth + 1 := h.fits.depth
  have harity : ∃ arity, st.arities[k]? = some arity ∧ arity ≤ v'.stack.length := by
    match o, hlabel, hbrings with
    | .branch _, rfl, hbrings => exact hbrings
    | .ret, rfl, ⟨arity, hlast, hle⟩ =>
      rw [List.getLast?_eq_getElem?, Stand.arities, List.length_map, hdepth] at hlast
      exact ⟨arity, hlast, hle⟩
  obtain ⟨arity, harity, hle⟩ := harity
  rw [Stand.arities, List.getElem?_map] at harity
  obtain ⟨b, hb, rfl⟩ := Option.map_eq_some_iff.1 harity
  exact ⟨b, hb, h.base_le b (List.mem_of_getElem? hb), hle⟩

/-- Behind an instruction that has come to its end. -/
theorem behind (hm : m.Valid) (himports : m.imports = [])
    (h : Placed m ⟨depth, labels, height, results, i :: rest⟩ st outer v)
    (he : Evaluates m (.instr i) v .next v') :
    Placed m ⟨depth, labels, UInt32.ofNat (st.base + v'.stack.length), results, rest⟩
      ⟨st.base + v'.stack.length, st.bounds⟩ outer v' := by
  obtain ⟨hlocals, hglobals⟩ := he.lengths
  refine ⟨?_, h.outer, rfl, ?_, ?_⟩
  · rw [hlocals]
    exact h.fits.behind ((h.keeps hm himports he).2 rfl)
  · rw [hlocals]
    exact h.locals
  · rw [hglobals]
    exact h.globals

/-- The height that code generation finds there. -/
theorem eq_height_behind (hm : m.Valid) (himports : m.imports = [])
    (hagrees : Agrees scope (m.context v.locals.length))
    (h : Placed m ⟨depth, labels, height, results, i :: rest⟩ st outer v)
    (he : Evaluates m (.instr i) v .next v')
    (hstep : lowerInstr scope depth labels height i pool = .ok (step, pool')) {next : UInt32}
    (hnext : step.flow.height? = some next) : next = UInt32.ofNat (st.base + v'.stack.length) := by
  obtain ⟨k, hk, rfl⟩ := h.fits.height_behind hagrees hstep hnext
  cases hk.symm.trans ((h.keeps hm himports he).2 rfl)
  rfl

/-- The constructs around the code of a construct, by the operands below it. -/
theorem bounds_enter {top params : Nat} (h : Placed m p (st.enter top params arity) outer v) :
    (st.enter top params arity).bounds = ⟨outer.length, arity⟩ :: st.bounds := by
  rw [h.outer]
  rfl

/-- In front of another turn of a loop. -/
theorem turn {bounds : List Bound} {ys : List Int32} (hm : m.Valid) (himports : m.imports = [])
    (h : Placed m ⟨depth, labels, height, results, body⟩ st outer v)
    (he : Evaluates m (.list body) v (.branch 0) ⟨ys, ls, gs⟩) (hlen : v.stack.length = arity)
    (hbounds : st.bounds = ⟨outer.length, arity⟩ :: bounds) :
    Placed m ⟨depth, labels, height, results, body⟩ st outer ⟨ys.rtake arity, ls, gs⟩ ∧
      (ys.rtake arity).length = arity := by
  obtain ⟨hlocals, hglobals⟩ := he.lengths
  obtain ⟨s, hs⟩ := h.fits.valid
  rw [h.height] at hs
  obtain ⟨⟨arity', harity, hle⟩, -⟩ := he.keeps hm himports h.arities_ne_nil hs
  rw [Stand.arities, hbounds] at harity
  cases harity
  have hrtake := length_rtake hle
  refine ⟨⟨?_, h.outer, ?_, ?_, ?_⟩, hrtake⟩
  · exact hlocals ▸ h.fits
  · rw [h.height, hlen]
    exact congrArg _ hrtake.symm
  · exact hlocals ▸ h.locals
  · exact hglobals ▸ h.globals

/-- In front of the code of a construct, which has taken the topmost operands. -/
theorem enter {top : Nat} (turn : Turn) {zs : List Int32} (h : Placed m p st outer ⟨zs, ls, gs⟩)
    (htop : top = st.base + xs.length + args.length) (hargs : args.length = counts.params)
    (hcloses : Closes (m.context ls.length) (arity :: st.arities) (top - counts.params) top
      counts.results body)
    (hheight : ∀ pos, heightAt? (m.context ls.length) st.arities st.base st.height p.code
        (turn :: pos) =
      heightAt? (m.context ls.length) (arity :: st.arities) (top - counts.params) top body pos)
    (htables : Instr.allLive Instr.tableFits body = true) (hnesting : p.depth + 1 ≤ maxNesting) :
    Placed m ⟨p.depth + 1,
        p.labels ++ [⟨UInt32.ofNat (top - counts.params), UInt32.ofNat arity⟩], UInt32.ofNat top,
        results, body⟩ (st.enter top counts.params arity) (outer ++ xs) ⟨args, ls, gs⟩ where
  fits := h.fits.enter (by omega) hcloses hheight htables hnesting
  outer := by
    show (outer ++ xs).length = top - counts.params
    rw [List.length_append, h.outer]
    omega
  height := by
    show top = top - counts.params + args.length
    omega
  locals := h.locals
  globals := h.globals

end Placed

/-! ## Constructs -/

section
variable (hagrees : Agrees scope (m.context ls.length))
  (hcounts : (m.context 0).blockCounts? type = some counts) (hargs : args.length = counts.params)
include hagrees hcounts hargs

/-- In front of the code of a block. -/
theorem Placed.block
    (h : Placed m ⟨depth, labels, height, results, .block type body :: rest⟩ st outer
      ⟨xs ++ args, ls, gs⟩)
    (hstep : lowerInstr scope depth labels height (.block type body) pool = .ok (step, pool')) :
    ∃ b next labels', lowerList scope (depth + 1) labels' height body pool = .ok (b, pool') ∧
      step = closed depth b next ∧
      Placed m ⟨depth + 1, labels', height, results, body⟩
        (st.enter st.height counts.params counts.results) (outer ++ xs) ⟨args, ls, gs⟩ := by
  obtain ⟨s, hs⟩ := h.fits.validate
  obtain ⟨counts', hcounts', hle, hcloses, -⟩ := of_validate_block hs
  cases hcounts.symm.trans hcounts'
  obtain ⟨arity, b, next, harity, -, hnesting, hlower, -, rfl⟩ := lowerInstr_block.1 hstep
  obtain rfl := hagrees.arity_eq harity hcounts
  obtain rfl := h.fits.height
  have hlow := UInt32.ofNat_sub (Nat.le_of_add_left_le hle)
  have htop := h.height
  rw [List.length_append, ← Nat.add_assoc] at htop
  exact ⟨b, _, _, hlower, rfl, hlow ▸ h.enter .inside htop hargs hcloses
    (fun pos => heightAt?_block hcounts' hle)
    (Instr.allLive_cons.1 h.fits.tables).1 hnesting⟩

/-- In front of the code of a loop. -/
theorem Placed.loop
    (h : Placed m ⟨depth, labels, height, results, .loop type body :: rest⟩ st outer
      ⟨xs ++ args, ls, gs⟩)
    (hstep : lowerInstr scope depth labels height (.loop type body) pool = .ok (step, pool')) :
    ∃ b next labels' pool₁, lowerList scope (depth + 1) labels' height body pool = .ok (b, pool₁) ∧
      lowerLoop depth b next pool₁ = .ok (step, pool') ∧
      Placed m ⟨depth + 1, labels', height, results, body⟩
        (st.enter st.height counts.params counts.params) (outer ++ xs) ⟨args, ls, gs⟩ := by
  obtain ⟨s, hs⟩ := h.fits.validate
  obtain ⟨counts', hcounts', hle, hcloses, -⟩ := of_validate_loop hs
  cases hcounts.symm.trans hcounts'
  obtain ⟨arity, b, next, pool₁, harity, -, hnesting, hlower, -, hloop⟩ :=
    lowerInstr_loop.1 hstep
  obtain rfl := hagrees.arity_eq harity hcounts
  obtain rfl := h.fits.height
  have hlow := UInt32.ofNat_sub (Nat.le_of_add_left_le hle)
  have htop := h.height
  rw [List.length_append, ← Nat.add_assoc] at htop
  exact ⟨b, _, _, pool₁, hlower, hloop, hlow ▸ h.enter .inside htop hargs hcloses
    (fun pos => heightAt?_loop hcounts' hle)
    (Instr.allLive_cons.1 h.fits.tables).1 hnesting⟩

/-- In front of the code of either arm of an `if`. -/
theorem Placed.ifElse {consequent alternative : List Instr} {choice : Int32}
    (h : Placed m ⟨depth, labels, height, results, .ifElse type consequent alternative :: rest⟩ st
      outer ⟨xs ++ args ++ [choice], ls, gs⟩)
    (hstep : lowerInstr scope depth labels height (.ifElse type consequent alternative) pool =
      .ok (step, pool')) :
    ∃ first second next labels' height' pool₁ pool₂ one other pool₃,
      lowerList scope (depth + 1) labels' height' consequent pool = .ok (first, pool₁) ∧
      lowerList scope (depth + 1) labels' height' alternative pool₁ = .ok (second, pool₂) ∧
      IsOne pool₂ first.commands one pool₃ ∧ IsOne pool₃ second.commands other pool' ∧
      step = closed depth ⟨choose one other, min first.target second.target⟩ next ∧
      ∀ body ∈ [consequent, alternative],
        Placed m ⟨depth + 1, labels', height', results, body⟩
          (st.enter (st.height - 1) counts.params counts.results) (outer ++ xs)
          ⟨args, ls, gs⟩ := by
  obtain ⟨s, hs⟩ := h.fits.validate
  obtain ⟨counts', hcounts', hle, hcloses, -⟩ := of_validate_ifElse hs
  cases hcounts.symm.trans hcounts'
  obtain ⟨arity, first, second, next, pool₁, pool₂, one, other, pool₃, harity, -, -, hnesting,
    hfirst, hsecond, hone, hother, -, rfl⟩ := lowerInstr_ifElse.1 hstep
  obtain rfl := hagrees.arity_eq harity hcounts
  obtain rfl := h.fits.height
  have htop := UInt32.ofNat_sub (show 1 ≤ st.height by omega)
  have hlow := UInt32.ofNat_sub (show counts.params ≤ st.height - 1 by omega)
  have hheight := h.height
  rw [List.length_append, List.length_append, List.length_singleton] at hheight
  have harms := Bool.and_eq_true_iff.1 (Instr.allLive_cons.1 h.fits.tables).1
  refine ⟨first, second, _, _, _, pool₁, pool₂, one, other, pool₃, hfirst, hsecond, hone, hother,
    rfl, fun body hbody => htop ▸ hlow ▸ ?_⟩
  simp only [List.mem_cons, List.not_mem_nil, or_false] at hbody
  obtain rfl | rfl := hbody
  · exact h.enter .inside (by omega) hargs (hcloses _ (.head _))
      (fun pos => heightAt?_ifElse hcounts' hle (by decide)) harms.1 hnesting
  · exact h.enter .otherwise (by omega) hargs (hcloses _ (.tail _ (.head _)))
      (fun pos => heightAt?_ifElse hcounts' hle (by decide)) harms.2 hnesting

end

end Compile

end WasmPack
