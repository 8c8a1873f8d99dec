/-
  WasmPack.Proofs.Operands.Bodies

  Code generation reckons with heights of the operand stack, and the code that it
  generates keeps to them.  It does not look whether a list of instructions leaves
  what its type says, so that is asked of the body here.
-/
import WasmPack.Proofs.Operands.Branches
import WasmPack.Proofs.Validation.Visits

namespace WasmPack

namespace Compile

open Wasm

/-! ## Faithful bodies -/

/-- The number of operands that a list is to leave. -/
def Point.leaves (p : Point) : Nat := p.labels.getLast?.elim 0 (·.height.toNat) + p.results.toNat

/-- What code generation relies on where it has come to. -/
structure Point.IsFaithful (p : Point) : Prop where
  /-- Commands can count with the numbers of labels. -/
  labels : ∀ l ∈ p.labels, l.Fits
  /-- A list leaves the operands that its type says. -/
  ends : p.code = [] → p.leaves ≤ p.height.toNat
  /-- An abort leaves the operands that the type of the function says. -/
  aborts : ∀ rest l, p.code = .unreachable :: rest → p.labels[0]? = some l →
    l.full ≤ p.height.toNat
  /-- Commands can count with the number of labels of a table. -/
  tables : ∀ table default rest, p.code = .brTable table default :: rest → table.length ≤ 2 ^ 31

/-- The same wherever code generation comes to. -/
def Faithful (scope : Scope) (p : Point) : Prop := ∀ pos q, Visits scope p pos q → q.IsFaithful

theorem Faithful.here {scope : Scope} {p : Point} (h : Faithful scope p) : p.IsFaithful :=
  h [] p (.here p)

variable {scope : Scope} {depth : Nat} {labels : List Label} {height results : UInt32}
  {i : Instr} {rest : List Instr}

theorem Faithful.nil (hfits : ∀ l ∈ labels, l.Fits)
    (hends : Point.leaves ⟨depth, labels, height, results, []⟩ ≤ height.toNat) :
    Faithful scope ⟨depth, labels, height, results, []⟩ := by
  intro pos q hq
  cases hq
  exact ⟨hfits, fun _ => hends, by rintro _ _ ⟨⟩, by rintro _ _ _ ⟨⟩⟩

/-- Nothing is asked in front of an instruction that neither branches nor encloses others. -/
theorem Faithful.straight (hi : i.isStraight = true) (hfits : ∀ l ∈ labels, l.Fits)
    (hrest : ∀ {cs next}, lowerStraight scope height i = .ok (cs, next) →
      Faithful scope ⟨depth, labels, next, results, rest⟩) :
    Faithful scope ⟨depth, labels, height, results, i :: rest⟩ := by
  intro pos q hq
  cases hq with
  | here =>
    refine ⟨hfits, (nomatch ·), ?_, ?_⟩
    · rintro _ _ ⟨⟩
      cases hi
    · rintro _ _ _ ⟨⟩
      cases hi
  | behind hstep hnext h =>
    obtain ⟨cs, next, hcs, rfl, -⟩ := (lowerInstr_straight hi).1 hstep
    cases hnext
    exact hrest hcs _ _ h
  | block | loop | ifElse => cases hi

theorem leaves_inside (depth : Nat) (labels : List Label) (l : Label) (height results : UInt32)
    (code : List Instr) : Point.leaves ⟨depth, labels ++ [l], height, results, code⟩ =
      l.height.toNat + results.toNat := by
  simp only [Point.leaves, List.getLast?_concat, Option.elim_some]

end Compile

namespace Machine

open Compile Nbt Wasm

variable {code : Code} {declares : String → IndexSpaces → Prop} {ns : String}
  {spaces : IndexSpaces} {locals n depth e t : Nat} {below : List Nbt} {labels : List Label}
  {height label : UInt32} {pool pool' : Pool} {step : Step} {b : Block} {cs : List Command}
  {i : Instr} {rest : List Instr} {mnemonic : String} {target : Nat} {V : Option Nbt}

/-! ## Branches -/

/-- A branch under conditions, as one command. -/
theorem exists_aims {condition : List Modifier}
    (h : branchIf mnemonic depth labels height label condition pool = .ok ((cs, target), pool'))
    (hfits : ∀ l ∈ labels, l.Fits) (hr : Resolved code ns pool pool') :
    ∃ l c, Aims labels depth height target l ∧
      IsArm code ns (branchCommands height target l) (some c) ∧
      cs = [condition.foldr (fun m c => c.guarded m) c] := by
  obtain ⟨l, one, hl, hheight, hone, rfl⟩ := branchIf_eq_ok.1 h
  have harm := isArm_of_isOne hone hr
  cases one with
  | none =>
    cases harm with
    | none hnil => exact absurd hnil (by simp [branchCommands])
  | some c => exact ⟨l, c, .of_labelAt hl hheight hfits, harm, rfl⟩

/-- The entries of a table. -/
theorem triple_entries {table : List UInt32} {k least : Nat} (hfits : ∀ l ∈ labels, l.Fits)
    (hk : k + table.length ≤ 2 ^ 31)
    (h : branchCases mnemonic depth labels height k table pool = .ok ((cs, least), pool'))
    (hr : Resolved code ns pool pool') (t : Nat) (V : Option Nbt) :
    Triple code (StackSafe below) n ns cs (At V (Selected below labels height.toNat depth t k))
      (At V (Selected below labels height.toNat depth (min least t) (k + table.length))) := by
  induction table generalizing k cs least pool t with
  | nil =>
    obtain ⟨rfl, rfl, rfl⟩ := branchCases_nil.1 h
    exact .nil fun σ hσ => hσ.mono fun _ hσ => hσ.mono (Nat.min_le_right _ _)
  | cons label table ih =>
    obtain ⟨jump, target, jumps, least', pool₁, hjump, hjumps, rfl, rfl⟩ := branchCases_cons.1 h
    obtain ⟨l, c, haims, hc, rfl⟩ := exists_aims hjump hfits (hr.left (.of_branchCases hjumps))
    rw [List.length_cons] at hk ⊢
    have hrest := ih (by omega) hjumps (hr.right (.of_branchIf hjump)) (min target t)
    rw [← Nat.min_assoc, Nat.min_comm least' target, Nat.add_assoc, Nat.add_comm 1] at hrest
    exact .seq (triple_entry haims hc (by omega) V) hrest

theorem toNat_of_one_le (h : 1 ≤ height) : height.toNat = (height - 1).toNat + 1 :=
  have hbelow : Compile.below "" height 1 = .ok (height - 1) := below_eq_ok.2 ⟨h, rfl⟩
  toNat_of_below hbelow

/-! ## Instructions -/

/-- A branch in any case. -/
theorem triple_branch (hfits : ∀ l ∈ labels, l.Fits)
    (h : lowerBr mnemonic depth labels height label = .ok step) (V : Option Nbt) :
    Triple code (StackSafe below) n ns step.commands (At V (Level below height.toNat))
      (At V (Behind below labels depth step.flow)) := by
  obtain ⟨target, l, hl, hheight, rfl⟩ := lowerBr_eq_ok.1 h
  have haims := Aims.of_labelAt hl hheight hfits
  exact (triple_jump haims (I := fun σ => σ.conditions = V)
    (((ignores_conditions V).mono calm_among_unconditional).mono stack_among_calm)
    fun σ hσ hV => ⟨haims.departs hσ, hV⟩).weaken (fun _ hσ => ⟨hσ.1.1, hσ.2⟩) fun _ hσ => hσ

section Instructions

variable (hw : Settled code declares) (hns : declares ns spaces)

include hw hns

/-- A branch unless the condition is zero. -/
theorem triple_branchIf (hfits : ∀ l ∈ labels, l.Fits)
    (h : lowerBrIf mnemonic depth labels height label pool = .ok (step, pool'))
    (hr : Resolved code ns pool pool') (V : Option Nbt) :
    Triple code (StackSafe below) n ns step.commands (At V (Level below height.toNat))
      (At V (Behind below labels depth step.flow)) := by
  obtain ⟨target, jump, hone, hjump, rfl⟩ := lowerBrIf_eq_ok.1 h
  obtain ⟨l, c, haims, hc, rfl⟩ := exists_aims hjump hfits hr
  rw [toNat_of_one_le hone]
  exact .seq (triple_level hw hns liftsAll_popA V) (triple_jumpIf haims hc V)

/-- A branch that is selected from a table. -/
theorem triple_branchTable {table : List UInt32} {default : UInt32} (hfits : ∀ l ∈ labels, l.Fits)
    (htable : table.length ≤ 2 ^ 31)
    (h : lowerBrTable mnemonic depth labels height table default pool = .ok (step, pool'))
    (hr : Resolved code ns pool pool') (V : Option Nbt) :
    Triple code (StackSafe below) n ns step.commands (At V (Level below height.toNat))
      (At V (Behind below labels depth step.flow)) := by
  obtain ⟨cases', least, jump, target, pool₁, hone, hcases, hjump, rfl⟩ := lowerBrTable_eq_ok.1 h
  obtain ⟨l, c, haims, hc, rfl⟩ := exists_aims hjump hfits (hr.right (.of_branchCases hcases))
  rw [toNat_of_one_le hone]
  have hentries : Triple code (StackSafe below) n ns cases' _ _ := triple_entries hfits
    (by rwa [Nat.zero_add]) hcases (hr.left (.of_branchIf hjump)) least V
  rw [Nat.zero_add, Nat.min_self] at hentries
  refine .seq (.seq (triple_level hw hns liftsAll_popA V) (hentries.weaken (fun σ hσ =>
    hσ.mono fun _ hσ => .inl ⟨hσ, fun j hj => absurd hj (Nat.not_lt_zero j)⟩) fun _ hσ => hσ)) ?_
  unfold outsideTable
  split
  · rename_i hempty
    rw [List.isEmpty_iff.1 hempty]
    refine triple_arm hc (fun σ hσ => hσ.1.stacked) ((triple_jump haims
      (I := fun σ => σ.conditions = V) (((ignores_conditions V).mono
        calm_among_unconditional).mono stack_among_calm) fun σ hσ hV =>
          ⟨(haims.departs hσ).mono (Nat.min_le_right _ _), hV⟩).weaken (fun σ hσ => ?_)
            fun _ hσ => hσ)
    have hlevel := hσ.1.resolve_right fun ⟨_, j, hj, _⟩ => Nat.not_lt_zero j hj
    exact ⟨hlevel.1.1, hσ.2⟩
  · rename_i hne
    have hpos : 0 < table.length :=
      List.length_pos_iff.2 fun hnil => hne (List.isEmpty_iff.2 hnil)
    exact triple_default haims hc hpos htable V

/-- An instruction that neither branches nor encloses others. -/
theorem triple_straightOperands (hcallee : ∀ m < n, OperandsKeep code declares m)
    {height' : UInt32} (h : lowerStraight ⟨spaces, locals⟩ height i = .ok (cs, height'))
    (V : Option Nbt) :
    Triple code (StackSafe below) n ns cs (At V (Level below height.toNat))
      (At V (Level below height'.toNat)) := by
  by_cases hcall : ∃ func, i = .call func
  · obtain ⟨func, rfl⟩ := hcall
    obtain ⟨entry, base, hentry, hbase, hnext, rfl⟩ := lowerStraight_call h
    rw [toNat_of_below hbase, toNat_of_above hnext]
    exact triple_callOperands hw hns hentry hcallee
      (Nat.le_trans (Nat.mod_le _ _) (hw.params hns hentry)) below _ V
  · exact triple_level hw hns (liftsAll_of_lowerStraight h fun func hi => hcall ⟨func, hi⟩) V

end Instructions

/-! ## Lists -/

/-- What follows an instruction. -/
theorem triple_continues {scope : Scope}
    (hi : Triple code (StackSafe below) n ns step.commands (At V (Level below height.toNat))
      (At V (Behind below labels depth step.flow)))
    (h : Continues scope depth labels rest step pool b pool') (hr : Resolved code ns pool pool')
    (hlast : rest = [] → ∀ next, step.flow.height? = some next → e ≤ next.toNat)
    (hrest : ∀ {next code' pool₁ pool₂}, step.flow.height? = some next →
      lowerList scope depth labels next rest pool₁ = .ok (code', pool₂) →
      Resolved code ns pool₁ pool₂ → Triple code (StackSafe below) n ns code'.commands
        (At V (Level below next.toNat)) (At V (Left below labels e depth code'.target))) :
    Triple code (StackSafe below) n ns b.commands (At V (Level below height.toNat))
      (At V (Left below labels e depth b.target)) := by
  cases h with
  | next hf h =>
    rw [hf] at hi
    exact .seq hi (hrest (by rw [hf]; rfl) h hr)
  | @last next target guard hf hnil =>
    rw [hf] at hi
    exact hi.weaken (fun _ hσ => hσ) fun _ hσ => hσ.mono fun _ hσ =>
      hσ.left.mono (hlast hnil next (by rw [hf]; rfl)) (Nat.le_refl _)
  | @guarded next target guard code' pool₁ hf hne h =>
    rw [hf] at hi
    obtain ⟨hid, hr'⟩ := hr.filled (extends_lowerList scope depth labels _ rest h)
    have hnext := hrest (by rw [hf]; rfl) h hr'
    refine .seq hi (Triple.weaken (I := fun σ => guard.IsCondition ∧
      At V (Guarded below labels next.toNat depth target guard) σ) (.given fun hg => ?_)
        (fun _ hσ => ⟨hσ.1.condition, hσ⟩) fun _ hσ => hσ)
    refine triple_guarded hg (fun σ hσ => hσ.1.left.stacked)
      (triple_arm (.fragment hid) (fun σ hσ => hσ.1.1.left.stacked)
        (hnext.weaken (fun σ hσ => ⟨hσ.1.1.resumed hσ.2, hσ.1.2⟩) fun _ hσ =>
          hσ.mono fun _ hσ => hσ.mono (Nat.le_refl e) (Nat.min_le_right _ _)))
      fun σ hσ hb => ⟨.inr ((hσ.1.skipped hb).mono (Nat.min_le_left _ _)), hσ.2⟩
  | stop hf =>
    rw [hf] at hi
    exact hi.weaken (fun _ hσ => hσ) fun _ hσ => hσ.mono fun _ hσ => .inr hσ

/-! ## Constructs -/

/-- A block, where its list has been left. -/
theorem triple_closed {l : Label} (hd : depth ≤ maxNesting) (hnest : depth + 1 ≤ maxNesting)
    (hlen : labels.length = depth + 1) (hheight : height.toNat ≤ l.full) {k : Nat}
    (hcs : Triple code (StackSafe below) n ns b.commands (At V (Level below k))
      (At V (Left below (labels ++ [l]) l.full (depth + 1) b.target))) :
    Triple code (StackSafe below) n ns (closed depth b height).commands (At V (Level below k))
      (At V (Behind below labels depth (closed depth b height).flow)) :=
  .seq hcs ((triple_arrivals hnest hlen V).weaken (fun _ hσ => hσ) fun _ hσ =>
    hσ.mono fun _ hσ => hσ.behind hd hheight)

/-- A loop, where its list has been left. -/
theorem triple_lowerLoop {l : Label} (hd : depth ≤ maxNesting) (hnest : depth + 1 ≤ maxNesting)
    (hlen : labels.length = depth + 1) (hheight : height.toNat ≤ e)
    (hcs : Triple code (StackSafe below) n ns b.commands (At V (Level below l.full))
      (At V (Left below (labels ++ [l]) e (depth + 1) b.target)))
    (h : lowerLoop depth b height pool = .ok (step, pool')) (hr : Resolved code ns pool pool') :
    Triple code (StackSafe below) n ns step.commands (At V (Level below l.full))
      (At V (Behind below labels depth step.flow)) := by
  obtain ⟨-, rfl, rfl⟩ | ⟨hlt, rfl, rfl⟩ := lowerLoop_eq_ok.1 h
  · exact (triple_loop hnest hlen hr.last hcs).weaken (fun _ hσ => hσ) fun _ hσ =>
      hσ.mono fun _ hσ => hσ.behind hd hheight
  · refine hcs.weaken (fun _ hσ => hσ) fun _ hσ => hσ.mono fun σ hσ => ?_
    have hleft : Left below labels e depth b.target σ := .inl (hσ.settled hlt)
    exact hleft.behind hd hheight

mutual

theorem triple_lowerInstr (hw : Settled code declares) (hns : declares ns spaces)
    (hcallee : ∀ m < n, OperandsKeep code declares m) (depth : Nat) (labels : List Label)
    (height results : UInt32) (rest : List Instr) : ∀ (i : Instr) {pool pool' : Pool} {step : Step},
      lowerInstr ⟨spaces, locals⟩ depth labels height i pool = .ok (step, pool') →
      depth ≤ maxNesting → labels.length = depth + 1 →
      Faithful ⟨spaces, locals⟩ ⟨depth, labels, height, results, i :: rest⟩ →
      Resolved code ns pool pool' → ∀ V, Triple code (StackSafe below) n ns step.commands
        (At V (Level below height.toNat)) (At V (Behind below labels depth step.flow))
  | .unreachable, _, _, _, h, _, hlen, ht, _, V => by
    obtain ⟨rfl, -⟩ := lowerInstr_unreachable.1 h
    obtain ⟨l, hl⟩ : ∃ l, labels[0]? = some l :=
      ⟨_, List.getElem?_eq_getElem (hlen ▸ Nat.succ_pos depth)⟩
    refine .moves (fun σ hσ => .of_staysIn (C := .nothing) hσ.1.1 rfl) (.setScore fun σ hσ =>
      ⟨⟨0, l, Nat.le_refl _, Nat.zero_le _, hl, State.regs_setReg _ _ _ _, ?_⟩, hσ.2⟩)
    exact hσ.1.1.mono (ht.here.aborts rest l rfl hl)
  | .block type body, _, _, _, h, hd, hlen, ht, hr, V => by
    obtain ⟨arity, b, next, harity, hle, hnest, hb, hnext, rfl⟩ := lowerInstr_block.1 h
    have hbody := triple_lowerList hw hns hcallee (depth + 1)
      (labels ++ [⟨height - arity.params, arity.results⟩]) height arity.results body hb hnest
      (by rw [List.length_append, hlen]; rfl)
      (fun pos q hq => ht (.inside :: pos) q (.block harity (below_eq_ok.2 ⟨hle, rfl⟩) hq)) hr V
    rw [leaves_inside] at hbody
    exact triple_closed (l := ⟨height - arity.params, arity.results⟩) hd hnest hlen
      (Nat.le_of_eq (toNat_of_above hnext)) hbody
  | .loop type body, _, _, _, h, hd, hlen, ht, hr, V => by
    obtain ⟨arity, b, next, pool₁, harity, hle, hnest, hb, hnext, hloop⟩ := lowerInstr_loop.1 h
    have hbase : Compile.below "loop" height arity.params = .ok (height - arity.params) :=
      below_eq_ok.2 ⟨hle, rfl⟩
    have hbody := triple_lowerList hw hns hcallee (depth + 1)
      (labels ++ [⟨height - arity.params, arity.params⟩]) height arity.results body hb hnest
      (by rw [List.length_append, hlen]; rfl)
      (fun pos q hq => ht (.inside :: pos) q (.loop harity hbase hq))
      (hr.left (.of_lowerLoop hloop)) V
    rw [leaves_inside] at hbody
    have hfull : height.toNat = Label.full ⟨height - arity.params, arity.params⟩ :=
      toNat_of_below hbase
    rw [hfull] at hbody ⊢
    exact triple_lowerLoop (l := ⟨height - arity.params, arity.params⟩) hd hnest hlen
      (Nat.le_of_eq (toNat_of_above hnext)) hbody hloop
      (hr.right (extends_lowerList _ _ _ _ body hb))
  | .ifElse type consequent alternative, _, _, _, h, hd, hlen, ht, hr, V => by
    obtain ⟨arity, first, second, next, pool₁, pool₂, one, other, pool₃, harity, hone', hle, hnest,
      hfirst, hsecond, hone, hother, hnext, rfl⟩ := lowerInstr_ifElse.1 h
    have htop : Compile.below "if" height 1 = .ok (height - 1) := below_eq_ok.2 ⟨hone', rfl⟩
    have hbase : Compile.below "if" (height - 1) arity.params = .ok (height - 1 - arity.params) :=
      below_eq_ok.2 ⟨hle, rfl⟩
    -- The fragments of the arms come before the arms themselves.
    have h₁ := extends_lowerList _ _ _ _ consequent hfirst
    have h₂ := extends_lowerList _ _ _ _ alternative hsecond
    have h₃ := Extends.of_isOne hone
    have h₄ := Extends.of_isOne hother
    have hlen' : (labels ++ [(⟨height - 1 - arity.params, arity.results⟩ : Label)]).length =
        depth + 1 + 1 := by
      rw [List.length_append, hlen]
      rfl
    have hconsequent := triple_lowerList hw hns hcallee _ _ (height - 1)
      arity.results consequent hfirst hnest hlen'
      (fun pos q hq => ht (.inside :: pos) q (.ifElse harity htop hbase (nomatch ·) hq))
      (hr.left (h₂.trans (h₃.trans h₄)))
    have halternative := triple_lowerList hw hns hcallee _ _ (height - 1)
      arity.results alternative hsecond hnest hlen'
      (fun pos q hq => ht (.otherwise :: pos) q (.ifElse harity htop hbase (nomatch ·) hq))
      ((hr.right h₁).left (h₃.trans h₄))
    rw [leaves_inside] at hconsequent halternative
    rw [toNat_of_one_le hone']
    refine triple_closed (l := ⟨height - 1 - arity.params, arity.results⟩) hd hnest hlen
      (Nat.le_of_eq (toNat_of_above hnext)) (triple_choose hw hns
      (isArm_of_isOne hone ((hr.right (h₁.trans h₂)).left h₄))
      (isArm_of_isOne hother (hr.right (h₁.trans (h₂.trans h₃))))
      (fun V => (hconsequent V).weaken (fun _ hσ => hσ) fun _ hσ => hσ.mono fun _ hσ =>
        hσ.mono (Nat.le_refl _) (Nat.min_le_left _ _))
      (fun V => (halternative V).weaken (fun _ hσ => hσ) fun _ hσ => hσ.mono fun _ hσ =>
        hσ.mono (Nat.le_refl _) (Nat.min_le_right _ _))
      (ignores_left _ _ _ _ _) (fun _ hσ => hσ.stacked) V)
  | .br label, _, _, _, h, _, _, ht, _, V => triple_branch ht.here.labels (lowerInstr_br.1 h).1 V
  | .brIf label, _, _, _, h, _, _, ht, hr, V => by
    rw [lowerInstr_brIf] at h
    exact triple_branchIf hw hns ht.here.labels h hr V
  | .brTable table default, _, _, _, h, _, _, ht, hr, V => by
    rw [lowerInstr_brTable] at h
    exact triple_branchTable hw hns ht.here.labels (ht.here.tables table default rest rfl) h hr V
  | .ret, _, _, _, h, _, _, ht, _, V => triple_branch ht.here.labels (lowerInstr_ret.1 h).1 V
  | .nop, _, _, _, h, _, _, _, _, V | .call _, _, _, _, h, _, _, _, _, V
  | .callIndirect _ _, _, _, _, h, _, _, _, _, V | .drop, _, _, _, h, _, _, _, _, V
  | .select, _, _, _, h, _, _, _, _, V | .localGet _, _, _, _, h, _, _, _, _, V
  | .localSet _, _, _, _, h, _, _, _, _, V | .localTee _, _, _, _, h, _, _, _, _, V
  | .globalGet _, _, _, _, h, _, _, _, _, V | .globalSet _, _, _, _, h, _, _, _, _, V
  | .load _ _, _, _, _, h, _, _, _, _, V | .store _ _, _, _, _, h, _, _, _, _, V
  | .memorySize _, _, _, _, h, _, _, _, _, V | .memoryGrow _, _, _, _, h, _, _, _, _, V
  | .i32Const _, _, _, _, h, _, _, _, _, V | .i64Const _, _, _, _, h, _, _, _, _, V
  | .f32Const _, _, _, _, h, _, _, _, _, V | .f64Const _, _, _, _, h, _, _, _, _, V
  | .numeric _, _, _, _, h, _, _, _, _, V => by
    obtain ⟨cs, height', hcs, rfl, -⟩ := (lowerInstr_straight rfl).1 h
    exact triple_straightOperands hw hns hcallee hcs V

/-- **Heights are kept to.**  The commands of a list of instructions take their operands from those
    that code generation reckons with, and leave what the list is to leave, or a branch under way
    with what its label takes. -/
theorem triple_lowerList (hw : Settled code declares) (hns : declares ns spaces)
    (hcallee : ∀ m < n, OperandsKeep code declares m) (depth : Nat) (labels : List Label)
    (height results : UInt32) : ∀ (body : List Instr) {pool pool' : Pool} {b : Block},
      lowerList ⟨spaces, locals⟩ depth labels height body pool = .ok (b, pool') →
      depth ≤ maxNesting → labels.length = depth + 1 →
      Faithful ⟨spaces, locals⟩ ⟨depth, labels, height, results, body⟩ →
      Resolved code ns pool pool' →
      ∀ V, Triple code (StackSafe below) n ns b.commands (At V (Level below height.toNat)) (At V
        (Left below labels (Point.leaves ⟨depth, labels, height, results, body⟩) depth b.target))
  | [], _, _, _, h, _, _, ht, _, V => by
    obtain ⟨rfl, -⟩ := lowerList_nil.1 h
    exact .nil fun σ hσ => hσ.mono fun _ hσ => .inl (hσ.mono (ht.here.ends rfl))
  | i :: rest, _, _, _, h, hd, hlen, ht, hr, V => by
    obtain ⟨step, pool₁, hstep, hrest⟩ := lowerList_cons.1 h
    have hbehind : ∀ {next}, step.flow.height? = some next →
        Faithful ⟨spaces, locals⟩ ⟨depth, labels, next, results, rest⟩ := fun hnext pos q hq =>
      ht (.behind :: pos) q (.behind hstep hnext hq)
    have hext : ∀ {height code' pool₁ pool₂},
        lowerList ⟨spaces, locals⟩ depth labels height rest pool₁ = .ok (code', pool₂) →
        Extends pool₁ pool₂ := fun h => extends_lowerList _ depth labels _ rest h
    have hi := triple_lowerInstr hw hns hcallee depth labels height results rest i
      hstep hd hlen ht (hr.left (.of_continues hrest hext)) V
    refine triple_continues hi hrest (hr.right (extends_lowerInstr _ _ _ _ i hstep))
      (fun hnil next hnext => ?_) fun hnext h' hr' =>
        triple_lowerList hw hns hcallee depth labels _ results rest h' hd hlen (hbehind hnext) hr' V
    subst hnil
    exact (hbehind hnext).here.ends rfl

end

end Machine

end WasmPack
