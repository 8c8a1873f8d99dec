/-
  WasmPack.Proofs.Validation.Rises

  How high the operand stack can get in live code.  An instruction puts only so
  many values on the stack, and is passed at most once on the way to a place; so
  the values that all instructions of a body put there, taken together, bound
  every height in it, and what its labels ask for as well.
-/
import WasmPack.Proofs.Validation.Stands

namespace WasmPack.Wasm

variable {c : Context} {arities : List Nat} {base height k top : Nat} {st st' : Stand} {i : Instr}
  {code : List Instr} {pos : Position} {m : Module} {b : Body}

/-- The number of values that a construct leaves. -/
def Context.resultsOf (c : Context) (type : BlockType) : Nat :=
  (c.blockCounts? type).elim 0 Counts.results

mutual

/-- How many values an instruction and all those inside it put on the operand stack. -/
def Context.riseOf (c : Context) : Instr → Nat
  | .block type body | .loop type body => c.resultsOf type + c.rise body
  | .ifElse type consequent alternative =>
    c.resultsOf type + c.rise consequent + c.rise alternative
  | i => (c.counts? i).elim 0 Counts.results
termination_by structural i => i

/-- How many values the instructions of a list put on the operand stack. -/
def Context.rise (c : Context) : List Instr → Nat
  | [] => 0
  | i :: rest => c.riseOf i + c.rise rest
termination_by structural body => body

end

theorem resultsOf_eq {type : BlockType} {counts : Counts}
    (h : c.blockCounts? type = some counts) : c.resultsOf type = counts.results := by
  rw [Context.resultsOf, h]
  rfl

theorem riseOf_straight (hi : i.isStraight = true) :
    c.riseOf i = (c.counts? i).elim 0 Counts.results := by
  cases i <;> first | rfl | cases hi

/-- Behind an instruction the operand stack is no higher than what the instruction puts on it. -/
theorem le_riseOf (h : validateInstr c arities base ⟨height, false⟩ i = some ⟨k, false⟩) :
    k ≤ height + c.riseOf i := by
  cases i with
  | unreachable => cases h
  | block type body =>
    obtain ⟨counts, hcounts, -, -, heq⟩ := of_validate_block h
    cases heq
    rw [Context.riseOf, resultsOf_eq hcounts]
    omega
  | loop type body =>
    obtain ⟨counts, hcounts, -, -, heq⟩ := of_validate_loop h
    cases heq
    rw [Context.riseOf, resultsOf_eq hcounts]
    omega
  | ifElse type consequent alternative =>
    obtain ⟨counts, hcounts, -, -, heq⟩ := of_validate_ifElse h
    cases heq
    rw [Context.riseOf, resultsOf_eq hcounts]
    omega
  | br label =>
    obtain ⟨_, -, -, heq⟩ := validateInstr_br.1 h
    cases heq
  | brIf label =>
    obtain ⟨_, -, -, heq⟩ := of_validate_brIf h
    cases heq
    omega
  | brTable table default =>
    obtain ⟨_, -, -, heq⟩ := of_validate_brTable h
    cases heq
  | ret =>
    obtain ⟨_, -, -, heq⟩ := validateInstr_ret.1 h
    cases heq
  | _ =>
    obtain ⟨counts, hcounts, -, heq⟩ := (validateInstr_straight rfl).1 h
    cases heq
    rw [riseOf_straight rfl, hcounts, Option.elim_some]
    omega

/-! ## Stands below a bound -/

/-- The operand stack is no higher, and no branch to a construct around the place asks for more. -/
structure Stand.Within (st : Stand) (top : Nat) : Prop where
  height : st.height ≤ top
  bounds : ∀ b ∈ st.bounds, b.base + b.arity ≤ top

/-- A construct that is entered stays below the bound if what branches to it bring does. -/
theorem Stand.Within.enter {n params arity : Nat} (h : st.Within top) (hn : n ≤ st.height)
    (harity : n - params + arity ≤ top) : (st.enter n params arity).Within top where
  height := Nat.le_trans hn h.height
  bounds := List.forall_mem_cons.2 ⟨harity, h.bounds⟩

/-- **Heights are bounded.**  No place on the way has a higher operand stack than the way began with
    and the instructions put there. -/
theorem Stand.Within.standAt? (h : st.Within top) (hrise : st.height + c.rise code ≤ top)
    (hat : standAt? c st code pos = some st') : st'.Within top := by
  -- What is left of the way has its rise still before it; behind an instruction, what that has put
  -- on the stack counts as height.
  induction pos generalizing st code with
  | nil =>
    cases code <;> cases hat <;> exact h
  | cons turn pos ih =>
    cases code with
    | nil => cases turn <;> cases hat
    | cons i rest =>
      rw [Context.rise] at hrise
      by_cases hturn : turn = .behind
      · subst hturn
        obtain ⟨⟨k, dead⟩, hvalid, hat⟩ := Option.bind_eq_some_iff.1 hat
        obtain ⟨next, hlive, hat⟩ := Option.bind_eq_some_iff.1 hat
        cases dead with
        | true => cases hlive
        | false =>
          cases hlive
          have hle := le_riseOf hvalid
          have hnext : Stand.Within ⟨k, st.bounds⟩ top := ⟨show k ≤ top by omega, h.bounds⟩
          exact ih hnext (show k + c.rise rest ≤ top by omega) hat
      cases i with
      | block type body =>
        cases turn with
        | inside =>
          obtain ⟨counts, hcounts, hat⟩ := Option.bind_eq_some_iff.1 hat
          obtain ⟨s, hs, hat⟩ := Option.bind_eq_some_iff.1 hat
          rw [Context.riseOf, resultsOf_eq hcounts] at hrise
          have hinner : st.height + c.rise body ≤ top := by omega
          exact ih (h.enter (Nat.le_refl _) (by omega)) hinner hat
        | _ => first | exact absurd rfl hturn | cases hat
      | loop type body =>
        cases turn with
        | inside =>
          obtain ⟨counts, hcounts, hat⟩ := Option.bind_eq_some_iff.1 hat
          obtain ⟨s, hs, hat⟩ := Option.bind_eq_some_iff.1 hat
          obtain ⟨hle, -⟩ := Operands.pop_eq_some.1 hs
          rw [Context.riseOf] at hrise
          have hinner : st.height + c.rise body ≤ top := by omega
          exact ih (h.enter (Nat.le_refl _) (by omega)) hinner hat
        | _ => first | exact absurd rfl hturn | cases hat
      | ifElse type consequent alternative =>
        rw [Wasm.standAt?] at hat
        · obtain ⟨counts, hcounts, hat⟩ := Option.bind_eq_some_iff.1 hat
          obtain ⟨s, hs, hat⟩ := Option.bind_eq_some_iff.1 hat
          obtain ⟨t, ht, hat⟩ := Option.bind_eq_some_iff.1 hat
          obtain ⟨-, rfl⟩ := Operands.pop_eq_some.1 hs
          rw [Context.riseOf, resultsOf_eq hcounts] at hrise
          have hinner : st.height - 1 + c.rise (if turn = .inside then consequent else alternative) ≤
              top := by
            split <;> omega
          exact ih (h.enter (Nat.sub_le _ _) (show st.height - 1 - _ + _ ≤ top by omega)) hinner hat
        · exact hturn
      | _ => cases turn <;> first | exact absurd rfl hturn | cases hat

/-! ## Heights -/

/-- Code inside a construct begins at the height at which the construct has been entered. -/
theorem heightAt?_enter {height params arity : Nat} {s : Operands}
    (h : Operands.pop st.base ⟨height, false⟩ params = some s) :
    heightAt? c (arity :: st.arities) s.height (s.height + params) code pos =
      heightAt? c (st.enter height params arity).arities (st.enter height params arity).base
        (st.enter height params arity).height code pos := by
  obtain ⟨hle, rfl⟩ := Operands.pop_eq_some.1 h
  have hheight : height - params + params = height :=
    Nat.sub_add_cancel (Nat.le_of_add_left_le hle)
  show heightAt? c _ _ (height - params + params) code pos = _
  rw [hheight]
  rfl

/-- The height at a place is that of what validation knows there. -/
theorem heightAt?_eq_map (st : Stand) : heightAt? c st.arities st.base st.height code pos =
    (standAt? c st code pos).map (·.height) := by
  fun_induction standAt? c st code pos with
  | case1 st code => cases code <;> rfl
  | case2 st i rest pos ih =>
    rw [heightAt?]
    simp only [Option.bind_eq_bind, Option.map_bind]
    congr 1
    funext s
    simp only [Function.comp_apply, Option.map_bind]
    congr 1
    funext k
    exact ih k
  | case3 st type body rest pos ih | case4 st type body rest pos ih =>
    rw [heightAt?]
    simp only [Option.bind_eq_bind, Option.map_bind]
    congr 1
    funext counts
    simp only [Function.comp_apply, Option.map_bind]
    exact Option.bind_congr fun s hs => (heightAt?_enter hs).trans (ih counts)
  | case5 st type consequent alternative rest turn pos hturn ih =>
    rw [heightAt?]
    · simp only [Option.bind_eq_bind, Option.map_bind]
      congr 1
      funext counts
      simp only [Function.comp_apply, Option.map_bind]
      refine Option.bind_congr fun s hs => Option.bind_congr fun t ht => ?_
      obtain ⟨-, rfl⟩ := Operands.pop_eq_some.1 hs
      exact (heightAt?_enter ht).trans (ih counts ⟨st.height - 1, false⟩)
    · exact hturn
  | case6 =>
    rw [heightAt?]
    all_goals first | rfl | assumption

/-! ## Bodies -/

/-- The results of a body, and all that its instructions put on the operand stack. -/
def Body.ceiling (m : Module) (b : Body) : Nat := b.results + (m.context b.locals).rise b.code

theorem Body.within_ceiling (h : b.standAt? m pos = some st) : st.Within (b.ceiling m) := by
  have hstart : Stand.Within ⟨0, [⟨0, b.results⟩]⟩ (b.ceiling m) := by
    refine ⟨Nat.zero_le _, List.forall_mem_singleton.2 ?_⟩
    show 0 + b.results ≤ b.results + _
    omega
  refine hstart.standAt? ?_ h
  show 0 + (m.context b.locals).rise b.code ≤ b.results + _
  omega

/-- No height in a body is above its ceiling. -/
theorem Body.heightAt?_le (h : b.heightAt? m pos = some k) : k ≤ b.ceiling m := by
  have hat : b.heightAt? m pos = (b.standAt? m pos).map (·.height) :=
    heightAt?_eq_map ⟨0, [⟨0, b.results⟩]⟩
  rw [hat] at h
  obtain ⟨st, hst, rfl⟩ := Option.map_eq_some_iff.1 h
  exact (Body.within_ceiling hst).height

end WasmPack.Wasm
