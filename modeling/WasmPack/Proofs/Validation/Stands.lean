/-
  WasmPack.Proofs.Validation.Stands

  Where code generation stands, in true numbers.

  Validation counts values with natural numbers; code generation keeps 32 bits of
  each count.  Whatever the module, as long as it is valid, every height and every
  label that code generation reckons with is the lower 32 bits of the true one.
-/
import WasmPack.Proofs.Validation.Acceptance

namespace WasmPack

namespace Wasm

variable {c : Context} {i : Instr} {rest body consequent alternative : List Instr}
  {type : BlockType} {counts : Counts} {pos : Position}

/-! ## Constructs around a place -/

/-- A construct around a place: the height under the values that it has taken, and how many a branch
    to it brings. -/
structure Bound where
  base : Nat
  arity : Nat

/-- What validation knows at a place in live code: the height of the operand stack, and the
    constructs around the place, from the inside outward. -/
structure Stand where
  height : Nat
  bounds : List Bound

namespace Stand

/-- How many values branches to the constructs bring. -/
def arities (st : Stand) : List Nat := st.bounds.map Bound.arity

/-- The height under the innermost construct. -/
def base (st : Stand) : Nat := (st.bounds.head?.map Bound.base).getD 0

/-- In front of the code of one more construct, which has taken the topmost values. -/
def enter (st : Stand) (height params arity : Nat) : Stand :=
  ⟨height, ⟨height - params, arity⟩ :: st.bounds⟩

end Stand

/-- What validation knows at a place, if it is one in live code. -/
def standAt? (c : Context) : Stand → List Instr → Position → Option Stand
  | st, _, [] => some st
  | st, i :: rest, .behind :: pos => do
    let s ← validateInstr c st.arities st.base ⟨st.height, false⟩ i
    standAt? c ⟨← s.live?, st.bounds⟩ rest pos
  | st, .block type body :: _, .inside :: pos => do
    let counts ← c.blockCounts? type
    let _ ← Operands.pop st.base ⟨st.height, false⟩ counts.params
    standAt? c (st.enter st.height counts.params counts.results) body pos
  | st, .loop type body :: _, .inside :: pos => do
    let counts ← c.blockCounts? type
    let _ ← Operands.pop st.base ⟨st.height, false⟩ counts.params
    standAt? c (st.enter st.height counts.params counts.params) body pos
  | st, .ifElse type consequent alternative :: _, turn :: pos => do
    let counts ← c.blockCounts? type
    let s ← Operands.pop st.base ⟨st.height, false⟩ 1
    let _ ← s.pop st.base counts.params
    standAt? c (st.enter s.height counts.params counts.results)
      (if turn = .inside then consequent else alternative) pos
  | _, _, _ => none
termination_by structural _ _ pos => pos

/-- What validation knows at a place in a body. -/
def Body.standAt? (m : Module) (b : Body) (pos : Position) : Option Stand :=
  Wasm.standAt? (m.context b.locals) ⟨0, [⟨0, b.results⟩]⟩ b.code pos

variable {st : Stand} {k : Nat}

theorem standAt?_behind
    (h : validateInstr c st.arities st.base ⟨st.height, false⟩ i = some ⟨k, false⟩) :
    standAt? c st (i :: rest) (.behind :: pos) = standAt? c ⟨k, st.bounds⟩ rest pos := by
  simp only [standAt?, h]
  rfl

theorem standAt?_block (hcounts : c.blockCounts? type = some counts)
    (hle : st.base + counts.params ≤ st.height) :
    standAt? c st (.block type body :: rest) (.inside :: pos) =
      standAt? c (st.enter st.height counts.params counts.results) body pos := by
  rw [standAt?, hcounts]
  simp only [Option.bind_eq_bind, Option.bind_some, Operands.pop, if_pos hle]

theorem standAt?_loop (hcounts : c.blockCounts? type = some counts)
    (hle : st.base + counts.params ≤ st.height) :
    standAt? c st (.loop type body :: rest) (.inside :: pos) =
      standAt? c (st.enter st.height counts.params counts.params) body pos := by
  rw [standAt?, hcounts]
  simp only [Option.bind_eq_bind, Option.bind_some, Operands.pop, if_pos hle]

theorem standAt?_ifElse (hcounts : c.blockCounts? type = some counts)
    (hle : st.base + counts.params + 1 ≤ st.height) {turn : Turn} (hturn : turn ≠ .behind) :
    standAt? c st (.ifElse type consequent alternative :: rest) (turn :: pos) =
      standAt? c (st.enter (st.height - 1) counts.params counts.results)
        (if turn = .inside then consequent else alternative) pos := by
  rw [standAt?, hcounts]
  · simp only [Option.bind_eq_bind, Option.bind_some, Operands.pop,
      if_pos (show st.base + 1 ≤ st.height by omega),
      if_pos (show st.base + counts.params ≤ st.height - 1 by omega)]
  · exact hturn

end Wasm

namespace Compile

open Wasm

variable {scope : Scope} {c : Context} {labels : List Label} {st st' : Stand} {depth : Nat}
  {height next results : UInt32} {i : Instr} {rest body : List Instr} {pool pool' : Pool}
  {step : Step} {counts : Counts} {p q : Point} {pos : Position}

/-! ## What success tells -/

/-- A construct has the arity that its type has for validation. -/
theorem Agrees.arity_eq (h : Agrees scope c) {type : BlockType} {arity : Arity}
    (harity : scope.spaces.blockArity type = .ok arity)
    (hcounts : c.blockCounts? type = some counts) : arity = arityOfCounts counts := by
  cases type with
  | empty =>
    cases hcounts
    cases harity
    rfl
  | value type =>
    cases hcounts
    cases type <;> cases harity
    rfl
  | func index =>
    obtain ⟨type, htype, rfl⟩ := Option.map_eq_some_iff.1 hcounts
    rw [← h.types, Array.getElem?_toList] at htype
    obtain ⟨type', hindex, heq⟩ := except_bind_eq_ok.1 harity
    cases htype.symm.trans (entryAt_eq_ok.1 hindex)
    cases heq
    rfl

/-- The height behind an instruction that neither branches nor encloses others, by its counts. -/
theorem Agrees.height_eq (h : Agrees scope c) {cs : List Command}
    (hlowers : Lowers scope height i cs next) (hcounts : c.counts? i = some counts) :
    next = height - UInt32.ofNat counts.params + UInt32.ofNat counts.results := by
  -- A count of zero leaves no trace in the height.
  have hsub : ∀ x : UInt32, x - UInt32.ofNat 0 = x := UInt32.sub_zero
  have hadd : ∀ x : UInt32, x + UInt32.ofNat 0 = x := UInt32.add_zero
  cases hlowers with
  | nop =>
    cases hcounts
    rw [hsub, hadd]
  | call hf hbase hnext =>
    obtain ⟨type, htype, rfl⟩ := Option.map_eq_some_iff.1 hcounts
    rw [← h.funcs, List.getElem?_map, Array.getElem?_toList, entryAt_eq_ok.1 hf] at htype
    cases htype
    obtain ⟨-, rfl⟩ := below_eq_ok.1 hbase
    obtain ⟨-, rfl⟩ := above_eq_ok.1 hnext
    rfl
  | drop hbase =>
    cases hcounts
    obtain ⟨-, rfl⟩ := below_eq_ok.1 hbase
    exact (hadd _).symm
  | select hbase hnext =>
    cases hcounts
    obtain ⟨-, rfl⟩ := below_eq_ok.1 hbase
    obtain ⟨-, rfl⟩ := above_eq_ok.1 hnext
    rfl
  | localGet hindex hnext =>
    obtain ⟨-, rfl⟩ := indexed_eq_some.1 hcounts
    obtain ⟨-, rfl⟩ := above_eq_ok.1 hnext
    rw [hsub]
    rfl
  | localSet _ hbase =>
    obtain ⟨-, rfl⟩ := indexed_eq_some.1 hcounts
    obtain ⟨-, rfl⟩ := below_eq_ok.1 hbase
    exact (hadd _).symm
  | localTee =>
    obtain ⟨-, rfl⟩ := indexed_eq_some.1 hcounts
    exact (UInt32.sub_add_cancel _ _).symm
  | globalGet hg hnext =>
    obtain ⟨-, rfl⟩ := indexed_eq_some.1 hcounts
    obtain ⟨-, rfl⟩ := above_eq_ok.1 hnext
    rw [hsub]
    rfl
  | globalSet _ hbase =>
    obtain ⟨-, rfl⟩ := indexed_eq_some.1 hcounts
    obtain ⟨-, rfl⟩ := below_eq_ok.1 hbase
    exact (hadd _).symm
  | load hm hbase hload hnext =>
    obtain ⟨-, rfl⟩ := indexed_eq_some.1 hcounts
    obtain ⟨-, rfl⟩ := below_eq_ok.1 hbase
    obtain ⟨-, rfl⟩ := above_eq_ok.1 hnext
    rfl
  | store _ hbase =>
    obtain ⟨-, rfl⟩ := indexed_eq_some.1 hcounts
    obtain ⟨-, rfl⟩ := below_eq_ok.1 hbase
    exact (hadd _).symm
  | memorySize hm hnext =>
    obtain ⟨-, rfl⟩ := indexed_eq_some.1 hcounts
    obtain ⟨-, rfl⟩ := above_eq_ok.1 hnext
    rw [hsub]
    rfl
  | memoryGrow hm hbase hnext =>
    obtain ⟨-, rfl⟩ := indexed_eq_some.1 hcounts
    obtain ⟨-, rfl⟩ := below_eq_ok.1 hbase
    obtain ⟨-, rfl⟩ := above_eq_ok.1 hnext
    rfl
  | i32Const hnext =>
    cases hcounts
    obtain ⟨-, rfl⟩ := above_eq_ok.1 hnext
    rw [hsub]
    rfl
  | numeric hop hbase hnext =>
    cases hcounts
    obtain ⟨cs, hlowered⟩ := exists_lowerNumeric (mem_supportedOps hop)
    cases hop.symm.trans hlowered
    obtain ⟨-, rfl⟩ := below_eq_ok.1 hbase
    obtain ⟨-, rfl⟩ := above_eq_ok.1 hnext
    rfl

/-! ## Tracking -/

/-- Values are taken and others put in their place. -/
theorem ofNat_shift {h m n : Nat} (hle : m ≤ h) :
    UInt32.ofNat h - UInt32.ofNat m + UInt32.ofNat n = UInt32.ofNat (h - m + n) := by
  rw [UInt32.ofNat_add, UInt32.ofNat_sub hle]

/-- The label of a construct: 32 bits of each of its numbers. -/
def labelOf (b : Bound) : Label := ⟨UInt32.ofNat b.base, UInt32.ofNat b.arity⟩

/-- Code generation tracks validation: its numbers are the lower 32 bits of the true ones. -/
structure Tracks (c : Context) (p : Point) (st : Stand) : Prop where
  height : p.height = UInt32.ofNat st.height
  labels : p.labels = (st.bounds.map labelOf).reverse
  depth : st.bounds.length = p.depth + 1
  nested : ∀ b ∈ st.bounds, b.base ≤ st.base
  valid : ∃ s, validateList c st.arities st.base ⟨st.height, false⟩ p.code = some s

namespace Tracks

theorem validate (h : Tracks c ⟨depth, labels, height, results, i :: rest⟩ st) :
    ∃ s, validateInstr c st.arities st.base ⟨st.height, false⟩ i = some s := by
  obtain ⟨s, hs⟩ := h.valid
  obtain ⟨t, ht, -⟩ := validateList_cons.1 hs
  exact ⟨t, ht⟩

/-- The height behind an instruction that code generation has passed. -/
theorem height_behind (hagrees : Agrees scope c)
    (h : Tracks c ⟨depth, labels, height, results, i :: rest⟩ st)
    (hstep : lowerInstr scope depth labels height i pool = .ok (step, pool'))
    (hnext : step.flow.height? = some next) :
    ∃ k, validateInstr c st.arities st.base ⟨st.height, false⟩ i = some ⟨k, false⟩ ∧
      next = UInt32.ofNat k := by
  obtain ⟨s, hs⟩ := h.validate
  have hheight : height = UInt32.ofNat st.height := h.height
  -- Constructs take their parameters and give their results, whatever their bodies come to.
  cases i with
  | unreachable =>
    obtain ⟨rfl, -⟩ := lowerInstr_unreachable.1 hstep
    cases hnext
  | block type body =>
    obtain ⟨counts, hcounts, hle, -, rfl⟩ := of_validate_block hs
    obtain ⟨arity, b, next, harity, -, -, -, habove, rfl⟩ := lowerInstr_block.1 hstep
    rw [hagrees.arity_eq harity hcounts] at habove
    obtain rfl := Option.some.inj (height?_escape.symm.trans hnext)
    obtain ⟨-, rfl⟩ := above_eq_ok.1 habove
    exact ⟨_, hs, by rw [hheight]; exact ofNat_shift (by omega)⟩
  | loop type body =>
    obtain ⟨counts, hcounts, hle, -, rfl⟩ := of_validate_loop hs
    obtain ⟨arity, b, next, pool₁, harity, -, -, -, habove, hloop⟩ := lowerInstr_loop.1 hstep
    rw [hagrees.arity_eq harity hcounts] at habove
    obtain rfl := Option.some.inj ((height?_of_lowerLoop hloop).symm.trans hnext)
    obtain ⟨-, rfl⟩ := above_eq_ok.1 habove
    exact ⟨_, hs, by rw [hheight]; exact ofNat_shift (by omega)⟩
  | ifElse type consequent alternative =>
    obtain ⟨counts, hcounts, hle, -, rfl⟩ := of_validate_ifElse hs
    obtain ⟨arity, first, second, next, pool₁, pool₂, one, other, pool₃, harity, -, -, -, -, -, -,
      -, habove, rfl⟩ := lowerInstr_ifElse.1 hstep
    rw [hagrees.arity_eq harity hcounts] at habove
    obtain rfl := Option.some.inj (height?_escape.symm.trans hnext)
    obtain ⟨-, rfl⟩ := above_eq_ok.1 habove
    refine ⟨_, hs, ?_⟩
    have htop : height - 1 = UInt32.ofNat (st.height - 1) := by
      rw [hheight, UInt32.ofNat_sub (by omega)]
      rfl
    rw [htop]
    exact ofNat_shift (by omega)
  -- Behind what always leaves there is no height.
  | br label =>
    obtain ⟨target, l, -, -, rfl⟩ := lowerBr_eq_ok.1 (lowerInstr_br.1 hstep).1
    cases hnext
  | brIf label =>
    obtain ⟨arity, harity, hle, rfl⟩ := of_validate_brIf hs
    rw [lowerInstr_brIf] at hstep
    obtain ⟨target, jump, -, -, rfl⟩ := lowerBrIf_eq_ok.1 hstep
    cases hnext
    refine ⟨_, hs, ?_⟩
    rw [hheight, UInt32.ofNat_sub (by omega)]
    rfl
  | brTable table default =>
    rw [lowerInstr_brTable] at hstep
    obtain ⟨cases', least, jump, target, pool₁, -, -, -, rfl⟩ := lowerBrTable_eq_ok.1 hstep
    cases hnext
  | ret =>
    obtain ⟨target, l, -, -, rfl⟩ := lowerBr_eq_ok.1 (lowerInstr_ret.1 hstep).1
    cases hnext
  | _ =>
    obtain ⟨counts, hcounts, hle, rfl⟩ := (validateInstr_straight rfl).1 hs
    obtain ⟨cs, height', hlower, rfl, -⟩ := (lowerInstr_straight rfl).1 hstep
    cases hnext
    refine ⟨_, hs, ?_⟩
    rw [hagrees.height_eq (lowerStraight_eq_ok.1 hlower) hcounts, hheight]
    exact ofNat_shift (by omega)

/-- Behind an instruction. -/
theorem behind {k : Nat} (h : Tracks c ⟨depth, labels, height, results, i :: rest⟩ st)
    (hk : validateInstr c st.arities st.base ⟨st.height, false⟩ i = some ⟨k, false⟩) :
    Tracks c ⟨depth, labels, UInt32.ofNat k, results, rest⟩ ⟨k, st.bounds⟩ where
  height := rfl
  labels := h.labels
  depth := h.depth
  nested := h.nested
  valid := by
    obtain ⟨s, hs⟩ := h.valid
    obtain ⟨t, ht, hs⟩ := validateList_cons.1 hs
    cases hk.symm.trans ht
    exact ⟨s, hs⟩

/-- In front of the code of a construct. -/
theorem enter {top arity : Nat} (h : Tracks c p st) (hle : st.base + counts.params ≤ top)
    (hcloses : Closes c (arity :: st.arities) (top - counts.params) top counts.results body) :
    Tracks c ⟨p.depth + 1,
        p.labels ++ [⟨UInt32.ofNat (top - counts.params), UInt32.ofNat arity⟩], UInt32.ofNat top,
        results, body⟩ (st.enter top counts.params arity) where
  height := rfl
  labels := by rw [h.labels, Stand.enter, List.map_cons, List.reverse_cons]; rfl
  depth := congrArg (· + 1) h.depth
  nested := by
    have hbase : (st.enter top counts.params arity).base = top - counts.params := rfl
    rw [hbase]
    refine List.forall_mem_cons.2 ⟨Nat.le_refl _, fun b hb => ?_⟩
    have := h.nested b hb
    omega
  valid := let ⟨s, hs, _⟩ := hcloses; ⟨s, hs⟩

/-- What code generation keeps along the way is what validation knows, in 32 bits. -/
theorem visits (hagrees : Agrees scope c) (hv : Visits scope p pos q) (h : Tracks c p st) :
    ∃ st', (∀ more, standAt? c st p.code (pos ++ more) = standAt? c st' q.code more) ∧
      heightAt? c st.arities st.base st.height p.code pos = some st'.height ∧ Tracks c q st' := by
  -- At every turn validation accepts what is in front, so nothing that is taken off exceeds the
  -- true height, and the subtraction in 32 bits is that of the true numbers.
  induction hv generalizing st with
  | here p =>
    cases p with
    | mk depth labels height results code => cases code <;> exact ⟨st, fun _ => rfl, rfl, h⟩
  | behind hstep hnext _ ih =>
    obtain ⟨k, hk, rfl⟩ := h.height_behind hagrees hstep hnext
    simp only [List.cons_append, standAt?_behind hk, heightAt?_behind hk]
    exact ih (h.behind hk)
  | block harity hbase _ ih =>
    obtain ⟨s, hs⟩ := h.validate
    obtain ⟨counts, hcounts, hle, hcloses, -⟩ := of_validate_block hs
    obtain rfl := hagrees.arity_eq harity hcounts
    obtain ⟨-, rfl⟩ := below_eq_ok.1 hbase
    obtain rfl := h.height
    simp only [List.cons_append, standAt?_block hcounts hle, heightAt?_block hcounts hle]
    have hlow := UInt32.ofNat_sub (Nat.le_of_add_left_le hle)
    exact ih (hlow ▸ h.enter hle hcloses)
  | loop harity hbase _ ih =>
    obtain ⟨s, hs⟩ := h.validate
    obtain ⟨counts, hcounts, hle, hcloses, -⟩ := of_validate_loop hs
    obtain rfl := hagrees.arity_eq harity hcounts
    obtain ⟨-, rfl⟩ := below_eq_ok.1 hbase
    obtain rfl := h.height
    simp only [List.cons_append, standAt?_loop hcounts hle, heightAt?_loop hcounts hle]
    have hlow := UInt32.ofNat_sub (Nat.le_of_add_left_le hle)
    exact ih (hlow ▸ h.enter hle hcloses)
  | ifElse harity htop hbase hturn _ ih =>
    obtain ⟨s, hs⟩ := h.validate
    obtain ⟨counts, hcounts, hle, hcloses, -⟩ := of_validate_ifElse hs
    obtain rfl := hagrees.arity_eq harity hcounts
    obtain ⟨-, rfl⟩ := below_eq_ok.1 htop
    obtain ⟨-, rfl⟩ := below_eq_ok.1 hbase
    obtain rfl := h.height
    simp only [List.cons_append, standAt?_ifElse hcounts hle hturn,
      heightAt?_ifElse hcounts hle hturn]
    have htop := UInt32.ofNat_sub (show 1 ≤ st.height by omega)
    have hlow := UInt32.ofNat_sub (show counts.params ≤ st.height - 1 by omega)
    refine ih (htop ▸ hlow ▸ h.enter (by omega) (hcloses _ ?_))
    split
    · exact .head _
    · exact .tail _ (.head _)

/-- Code generation for a body starts where validation does. -/
theorem start {m : Module} {b : Body} (hb : b.Valid m) :
    Tracks (m.context b.locals) (start b) ⟨0, [⟨0, b.results⟩]⟩ where
  height := rfl
  labels := rfl
  depth := rfl
  nested := List.forall_mem_singleton.2 (Nat.le_refl 0)
  valid := let ⟨s, hs, _⟩ := hb; ⟨s, hs⟩

end Tracks

end Compile

end WasmPack
