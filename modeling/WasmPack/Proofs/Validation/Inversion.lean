/-
  WasmPack.Proofs.Validation.Inversion

  What validation has found out where it accepts live code, instruction by
  instruction.
-/
import Mathlib.Data.Option.Basic
import WasmPack.Proofs.Compile.Inversion
import WasmPack.Proofs.Compile.Live
import WasmPack.Proofs.Validation.Counts

namespace WasmPack

namespace Wasm

variable {c : Context} {labels : List Nat} {base height count : Nat} {s s' : Operands}
  {i : Instr} {rest : List Instr} {counts : Counts}

/-! ## Operands of live code -/

theorem Operands.pop_eq_some : Operands.pop base ⟨height, false⟩ count = some s ↔
    base + count ≤ height ∧ s = ⟨height - count, false⟩ := by
  unfold Operands.pop
  split
  · rename_i hle
    exact ⟨fun h => ⟨hle, (Option.some.inj h).symm⟩, fun h => congrArg some h.2.symm⟩
  · rename_i hle
    exact ⟨(fun h => nomatch h), fun h => absurd h.1 hle⟩

theorem Operands.apply_eq_some : Operands.apply base ⟨height, false⟩ counts = some s ↔
    base + counts.params ≤ height ∧ s = ⟨height - counts.params + counts.results, false⟩ := by
  unfold Operands.apply
  rw [Option.map_eq_some_iff]
  constructor
  · rintro ⟨t, ht, rfl⟩
    obtain ⟨hle, rfl⟩ := Operands.pop_eq_some.1 ht
    exact ⟨hle, rfl⟩
  · rintro ⟨hle, rfl⟩
    exact ⟨_, Operands.pop_eq_some.2 ⟨hle, rfl⟩, rfl⟩

theorem leave_eq_some : leave base ⟨height, false⟩ count = some s ↔
    base + count ≤ height ∧ s = ⟨base, true⟩ := by
  unfold leave
  rw [Option.map_eq_some_iff]
  constructor
  · rintro ⟨t, ht, rfl⟩
    exact ⟨(Operands.pop_eq_some.1 ht).1, rfl⟩
  · rintro ⟨hle, rfl⟩
    exact ⟨_, Operands.pop_eq_some.2 ⟨hle, rfl⟩, rfl⟩

theorem indexed_eq_some {index : UInt32} {found : Counts} :
    indexed index count counts = some found ↔ index.toNat < count ∧ found = counts := by
  unfold indexed
  split
  · rename_i hlt
    exact ⟨fun h => ⟨hlt, (Option.some.inj h).symm⟩, fun h => congrArg some h.2.symm⟩
  · rename_i hlt
    exact ⟨(fun h => nomatch h), fun h => absurd h.1 hlt⟩

/-! ## Instructions of live code -/

theorem validateList_cons {body : List Instr} : validateList c labels base s (i :: body) = some s' ↔
    ∃ t, validateInstr c labels base s i = some t ∧ validateList c labels base t body = some s' :=
  Option.bind_eq_some_iff

variable {type : BlockType} {body consequent alternative : List Instr}

/-- A construct with one list of instructions, by what a branch to it brings. -/
theorem of_construct {arity : Counts → Nat} (h : (do
      let counts ← c.blockCounts? type
      let s ← Operands.pop base ⟨height, false⟩ counts.params
      let inner ← validateList c (arity counts :: labels) s.height
        ⟨s.height + counts.params, false⟩ body
      guard (inner.endsWith s.height counts.results)
      return s.push counts.results) = some s) :
    ∃ counts, c.blockCounts? type = some counts ∧ base + counts.params ≤ height ∧
      Closes c (arity counts :: labels) (height - counts.params) height counts.results body ∧
      s = ⟨height - counts.params + counts.results, false⟩ := by
  obtain ⟨counts, hcounts, h⟩ := Option.bind_eq_some_iff.1 h
  obtain ⟨t, ht, h⟩ := Option.bind_eq_some_iff.1 h
  obtain ⟨inner, hinner, h⟩ := Option.bind_eq_some_iff.1 h
  obtain ⟨_, hends, h⟩ := Option.bind_eq_some_iff.1 h
  obtain ⟨hle, rfl⟩ := Operands.pop_eq_some.1 ht
  rw [Nat.sub_add_cancel (by omega)] at hinner
  exact ⟨counts, hcounts, hle, ⟨inner, hinner, (Option.guard_eq_some' _).1 hends⟩,
    (Option.some.inj h).symm⟩

theorem of_validate_block
    (h : validateInstr c labels base ⟨height, false⟩ (.block type body) = some s) :
    ∃ counts, c.blockCounts? type = some counts ∧ base + counts.params ≤ height ∧
      Closes c (counts.results :: labels) (height - counts.params) height counts.results body ∧
      s = ⟨height - counts.params + counts.results, false⟩ :=
  of_construct h

theorem of_validate_loop
    (h : validateInstr c labels base ⟨height, false⟩ (.loop type body) = some s) :
    ∃ counts, c.blockCounts? type = some counts ∧ base + counts.params ≤ height ∧
      Closes c (counts.params :: labels) (height - counts.params) height counts.results body ∧
      s = ⟨height - counts.params + counts.results, false⟩ :=
  of_construct h

theorem of_validate_ifElse
    (h : validateInstr c labels base ⟨height, false⟩ (.ifElse type consequent alternative) =
      some s) :
    ∃ counts, c.blockCounts? type = some counts ∧ base + counts.params + 1 ≤ height ∧
      (∀ body ∈ [consequent, alternative], Closes c (counts.results :: labels)
        (height - 1 - counts.params) (height - 1) counts.results body) ∧
      s = ⟨height - 1 - counts.params + counts.results, false⟩ := by
  obtain ⟨counts, hcounts, h⟩ := Option.bind_eq_some_iff.1 h
  obtain ⟨t, ht, h⟩ := Option.bind_eq_some_iff.1 h
  obtain ⟨hle, rfl⟩ := Operands.pop_eq_some.1 ht
  obtain ⟨t', ht', h⟩ := Option.bind_eq_some_iff.1 h
  obtain ⟨hle', rfl⟩ := Operands.pop_eq_some.1 ht'
  obtain ⟨first, hfirst, h⟩ := Option.bind_eq_some_iff.1 h
  obtain ⟨_, hends, h⟩ := Option.bind_eq_some_iff.1 h
  obtain ⟨second, hsecond, h⟩ := Option.bind_eq_some_iff.1 h
  obtain ⟨_, hends', h⟩ := Option.bind_eq_some_iff.1 h
  rw [Nat.sub_add_cancel (by omega)] at hfirst hsecond
  refine ⟨counts, hcounts, by omega, ?_, (Option.some.inj h).symm⟩
  refine List.forall_mem_cons.2 ⟨⟨first, hfirst, (Option.guard_eq_some' _).1 hends⟩, ?_⟩
  exact List.forall_mem_singleton.2 ⟨second, hsecond, (Option.guard_eq_some' _).1 hends'⟩

theorem validateInstr_br {label : UInt32} :
    validateInstr c labels base ⟨height, false⟩ (.br label) = some s ↔
      ∃ arity, labels[label.toNat]? = some arity ∧ base + arity ≤ height ∧ s = ⟨base, true⟩ :=
  Option.bind_eq_some_iff.trans
    (exists_congr fun _ => and_congr_right fun _ => leave_eq_some)

theorem validateInstr_ret : validateInstr c labels base ⟨height, false⟩ .ret = some s ↔
    ∃ arity, labels.getLast? = some arity ∧ base + arity ≤ height ∧ s = ⟨base, true⟩ :=
  Option.bind_eq_some_iff.trans
    (exists_congr fun _ => and_congr_right fun _ => leave_eq_some)

theorem of_validate_brIf {label : UInt32}
    (h : validateInstr c labels base ⟨height, false⟩ (.brIf label) = some s) :
    ∃ arity, labels[label.toNat]? = some arity ∧ base + arity + 1 ≤ height ∧
      s = ⟨height - 1, false⟩ := by
  obtain ⟨t, ht, h⟩ := Option.bind_eq_some_iff.1 h
  obtain ⟨hle, rfl⟩ := Operands.pop_eq_some.1 ht
  obtain ⟨arity, harity, h⟩ := Option.bind_eq_some_iff.1 h
  obtain ⟨hle', rfl⟩ := Operands.apply_eq_some.1 h
  have hle' : base + arity ≤ height - 1 := hle'
  refine ⟨arity, harity, by omega, ?_⟩
  rw [Nat.sub_add_cancel (Nat.le_of_add_left_le hle')]

theorem of_validate_brTable {table : List UInt32} {default : UInt32}
    (h : validateInstr c labels base ⟨height, false⟩ (.brTable table default) = some s) :
    ∃ arity, (∀ label ∈ default :: table, labels[label.toNat]? = some arity) ∧
      base + arity + 1 ≤ height ∧ s = ⟨base, true⟩ := by
  obtain ⟨t, ht, h⟩ := Option.bind_eq_some_iff.1 h
  obtain ⟨hle, rfl⟩ := Operands.pop_eq_some.1 ht
  obtain ⟨arity, harity, h⟩ := Option.bind_eq_some_iff.1 h
  obtain ⟨_, htable, h⟩ := Option.bind_eq_some_iff.1 h
  obtain ⟨hle', rfl⟩ := leave_eq_some.1 h
  refine ⟨arity, List.forall_mem_cons.2 ⟨harity, ?_⟩, by omega, rfl⟩
  simpa using (Option.guard_eq_some' _).1 htable

theorem validateInstr_straight (hi : i.isStraight = true) :
    validateInstr c labels base ⟨height, false⟩ i = some s ↔
      ∃ counts, c.counts? i = some counts ∧ base + counts.params ≤ height ∧
        s = ⟨height - counts.params + counts.results, false⟩ := by
  have hvalidate : validateInstr c labels base ⟨height, false⟩ i =
      (c.counts? i).bind (Operands.apply base ⟨height, false⟩) := by
    cases i <;> first | rfl | cases hi
  rw [hvalidate]
  simp only [Option.bind_eq_some_iff, Operands.apply_eq_some]

/-- Behind an unconditional transfer of control, and there only, the code is dead. -/
theorem dead_of_validate (h : validateInstr c labels base ⟨height, false⟩ i = some s) :
    s.dead = i.stops := by
  cases i with
  | unreachable => exact (congrArg Operands.dead (Option.some.inj h)).symm
  | block type body =>
    obtain ⟨counts, -, -, -, rfl⟩ := of_validate_block h
    rfl
  | loop type body =>
    obtain ⟨counts, -, -, -, rfl⟩ := of_validate_loop h
    rfl
  | ifElse type consequent alternative =>
    obtain ⟨counts, -, -, -, rfl⟩ := of_validate_ifElse h
    rfl
  | br label =>
    obtain ⟨arity, -, -, rfl⟩ := validateInstr_br.1 h
    rfl
  | brIf label =>
    obtain ⟨arity, -, -, rfl⟩ := of_validate_brIf h
    rfl
  | brTable table default =>
    obtain ⟨arity, -, -, rfl⟩ := of_validate_brTable h
    rfl
  | ret =>
    obtain ⟨arity, -, -, rfl⟩ := validateInstr_ret.1 h
    rfl
  | _ =>
    obtain ⟨counts, -, -, rfl⟩ := (validateInstr_straight rfl).1 h
    rfl

/-! ## Heights -/

variable {pos : Position}

theorem heightAt?_block (hcounts : c.blockCounts? type = some counts)
    (hle : base + counts.params ≤ height) :
    heightAt? c labels base height (.block type body :: rest) (.inside :: pos) =
      heightAt? c (counts.results :: labels) (height - counts.params) height body pos := by
  rw [heightAt?, hcounts]
  simp only [Option.bind_eq_bind, Option.bind_some, Operands.pop, if_pos hle,
    Nat.sub_add_cancel (Nat.le_of_add_left_le hle)]

theorem heightAt?_loop (hcounts : c.blockCounts? type = some counts)
    (hle : base + counts.params ≤ height) :
    heightAt? c labels base height (.loop type body :: rest) (.inside :: pos) =
      heightAt? c (counts.params :: labels) (height - counts.params) height body pos := by
  rw [heightAt?, hcounts]
  simp only [Option.bind_eq_bind, Option.bind_some, Operands.pop, if_pos hle,
    Nat.sub_add_cancel (Nat.le_of_add_left_le hle)]

theorem heightAt?_ifElse (hcounts : c.blockCounts? type = some counts)
    (hle : base + counts.params + 1 ≤ height) {turn : Turn} (hturn : turn ≠ .behind) :
    heightAt? c labels base height (.ifElse type consequent alternative :: rest) (turn :: pos) =
      heightAt? c (counts.results :: labels) (height - 1 - counts.params) (height - 1)
        (if turn = .inside then consequent else alternative) pos := by
  rw [heightAt?, hcounts]
  · simp only [Option.bind_eq_bind, Option.bind_some, Operands.pop,
      if_pos (show base + 1 ≤ height by omega),
      if_pos (show base + counts.params ≤ height - 1 by omega),
      Nat.sub_add_cancel (show counts.params ≤ height - 1 by omega)]
  · exact hturn

end Wasm

end WasmPack
