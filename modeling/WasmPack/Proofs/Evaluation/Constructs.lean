/-
  WasmPack.Proofs.Evaluation.Constructs

  Where compiled code arrives behind an outcome, and what surrounds the code of
  constructs.

  Behind what has come to its end no branch is under way.  Else there is one, to
  the depth of a construct around the code, which finds there what the branch
  brings and nothing else of its own.  A construct is surrounded by the command
  that catches a branch to it, the condition that is put aside while an arm runs,
  or the fragment of a loop.  Each does what it should, if the code inside does.
-/
import WasmPack.Proofs.Evaluation.Effects
import WasmPack.Proofs.Evaluation.Places

namespace WasmPack

namespace Compile

open Wasm

/-- The least depth that a branch under way may target behind an instruction, or `never`. -/
def Flow.target : Flow → Nat
  | .next _ => never
  | .guarded _ target _ | .stop target => target

end Compile

namespace Machine

open Compile Wasm
open Nbt (entries position?_top getElem?_top)

variable {code : Code} {tags : TagTable} {ns : String} {l : Layout} {outer xs ys ls gs : List Int32}
  {depth target n arity : Nat} {bounds : List Bound} {b : Bound} {o : Outcome} {v : Values}
  {σ τ : State} {Q : State → Prop} {cs ds first second : List Command} {pool pool₁ pool' : Pool}
  {one other : Option Command} {g : Modifier} {x choice : Int32} {r : Register} {vs ws : List Nbt}

/-! ## Arrivals -/

/-- The machine is where the outcome leads from code with `depth` constructs around it, of which
    `bounds` are the numbers and `outer` the operands. -/
inductive Arrives (ns : String) (l : Layout) (outer : List Int32) (depth : Nat)
    (bounds : List Bound) (target : Nat) : Outcome → Values → State → Prop where
  | next {v : Values} {σ : State} (h : Rests ns (l.over outer) v σ) :
    Arrives ns l outer depth bounds target .next v σ
  | branch {o : Outcome} {v : Values} {σ : State} {n : Nat} {b : Bound}
      (hlabel : o.label? depth = some n) (hb : bounds[n]? = some b) (htarget : target ≤ depth - n)
      (hdepth : σ.regs .brDepth = some (Int32.ofNat (depth - n)))
      (h : ((l.over (outer.take b.base)).with { v with stack := v.stack.rtake b.arity }).In ns σ) :
    Arrives ns l outer depth bounds target o v σ

namespace Arrives

/-- A branch may go further outward than is known. -/
theorem mono {target' : Nat} (h : Arrives ns l outer depth bounds target o v σ)
    (hle : target' ≤ target) : Arrives ns l outer depth bounds target' o v σ := by
  cases h with
  | next h => exact .next h
  | branch hlabel hb htarget hdepth h => exact .branch hlabel hb (by omega) hdepth h

/-- What has come to its end leaves no branch under way. -/
theorem rests (h : Arrives ns l outer depth bounds target .next v σ) :
    Rests ns (l.over outer) v σ := by
  cases h with
  | next h => exact h
  | branch hlabel => cases hlabel

/-- Code that no branch leaves comes to its end. -/
theorem eq_next (h : Arrives ns l outer depth bounds never o v σ) (hd : depth ≤ maxNesting) :
    o = .next := by
  cases h with
  | next => rfl
  | branch _ _ htarget =>
    exact absurd htarget (Nat.not_le_of_lt (lt_never_of_le (Nat.sub_le _ _) hd))

/-- Whether a branch is under way tells whether the code has come to its end. -/
theorem idle_iff (h : Arrives ns l outer depth bounds target o v σ) (hd : depth ≤ maxNesting) :
    ∃ d, σ.regs .brDepth = some d ∧ (d = noBranch ↔ o = .next) := by
  cases h with
  | next h => exact ⟨_, h.idle, iff_of_true rfl rfl⟩
  | branch hlabel hb htarget hdepth h =>
    refine ⟨_, hdepth, iff_of_false (ofNat_ne_noBranch (by omega)) ?_⟩
    rintro rfl
    cases hlabel

end Arrives

/-- Behind an instruction, the guard of what follows lets it run if the instruction has come to its
    end. -/
def Admits : Flow → Outcome → State → Prop
  | .next _, _, _ => True
  | .guarded _ _ g, o, σ => σ.allows g = some (decide (o = .next))
  | .stop _, o, _ => o ≠ .next

/-- Behind a construct. -/
theorem Arrives.escape {next : UInt32} (h : Arrives ns l outer depth bounds target o v σ)
    (hd : depth ≤ maxNesting) :
    Arrives ns l outer depth bounds (escape depth target next).target o v σ ∧
      Admits (escape depth target next) o σ := by
  obtain ⟨d, hdepth, hidle⟩ := h.idle_iff hd
  unfold Compile.escape
  split
  · refine ⟨h, ?_⟩
    show σ.allows (.ifIn .brDepth (.exact noBranch)) = _
    rw [allows_ifIn_exact hdepth]
    exact congrArg some (decide_eq_decide.2 hidle)
  · refine ⟨?_, trivial⟩
    cases h with
    | next h => exact .next h
    | branch _ _ htarget => omega

/-! ## Commands that have become one -/

/-- Commands that have become at most one do what they did. -/
theorem computes_isOne (hone : IsOne pool cs one pool') (hr : Resolved code ns pool pool')
    (h : Computes code ns cs σ Q) : Computes code ns one.toList σ Q := by
  cases hone with
  | none | one => exact h
  | fragment => exact .callLastFound hr.last h

/-- The same under a guard. -/
theorem computes_guardedOne {b : Bool} (hone : IsOne pool cs one pool')
    (hr : Resolved code ns pool pool') (hg : σ.allows g = some b)
    (hyes : b = true → Computes code ns cs σ fun τ => Computes code ns ds τ Q)
    (hno : b = false → Computes code ns ds σ Q) :
    Computes code ns (one.toList.map (·.guarded g) ++ ds) σ Q := by
  have hone' := fun hb => computes_isOne hone hr (hyes hb)
  cases one with
  | none =>
    cases b with
    | true => exact (hone' rfl).seq fun τ hτ => hτ
    | false => exact hno rfl
  | some c => exact .guarded hg (fun hb => (hone' hb).seq fun τ hτ => hτ) hno

/-- The same if nothing follows. -/
theorem computes_guardedLast {b : Bool} (hone : IsOne pool cs one pool')
    (hr : Resolved code ns pool pool') (hg : σ.allows g = some b)
    (hyes : b = true → Computes code ns cs σ Q) (hno : b = false → Computes code ns [] σ Q) :
    Computes code ns (one.toList.map (·.guarded g)) σ Q := by
  have hguarded : Computes code ns (one.toList.map (·.guarded g) ++ []) σ Q :=
    computes_guardedOne hone hr hg (fun hb => (hyes hb).mono fun _ => .nil) hno
  rwa [List.append_nil] at hguarded

/-! ## Branches -/

/-- **Branches.**  The commands of a branch leave what the branch brings on what lies under the
    construct that it goes to. -/
theorem Rests.computes_branch (h : Rests ns (l.over outer) v σ) (hbase : b.base ≤ outer.length)
    (harity : b.arity ≤ v.stack.length) (hlt : outer.length + v.stack.length < 2 ^ 31) :
    Computes code ns
      (branchCommands (UInt32.ofNat (outer.length + v.stack.length)) target (labelOf b)) σ fun τ =>
      ((l.over (outer.take b.base)).with { v with stack := v.stack.rtake b.arity }).In ns τ ∧
        τ.regs .brDepth = some (Int32.ofNat target) ∧ τ.regs .a = σ.regs .a := by
  have hheight := toNat_ofNat (n := outer.length + v.stack.length) (by omega)
  have hlow := toNat_ofNat (n := b.base) (by omega)
  have hcount := toNat_ofNat (n := b.arity) (by omega)
  have hfull : (labelOf b).full = b.base + b.arity := by
    rw [Label.full, labelOf, hlow, hcount]
  -- Between the construct and what the branch brings lie operands that are dropped.
  have hvalues : outer ++ v.stack = outer.take b.base ++
      (outer.drop b.base ++ v.stack.take (v.stack.length - b.arity)) ++ v.stack.rtake b.arity := by
    rw [List.rtake, List.append_assoc, List.append_assoc (outer.drop _), List.take_append_drop,
      ← List.append_assoc, List.take_append_drop]
  have hsplit : (l.over outer).operands ++ v.stack.map .int =
      (l.over (outer.take b.base)).operands ++
        (outer.drop b.base ++ v.stack.take (v.stack.length - b.arity)).map Nbt.int ++
        (v.stack.rtake b.arity).map .int := by
    simp only [Layout.over, List.append_assoc, ← List.map_append]
    rw [hvalues, List.append_assoc, List.append_assoc]
  refine (computes_branchCommands ?_ ?_ ?_ ?_ (h.layout.operands.trans (congrArg _
    (congrArg _ hsplit)))).mono ?_
  · rw [hfull, hheight]
    omega
  · rw [labelOf, hcount]
    omega
  · rw [hfull, hheight, List.length_map, List.length_append, List.length_drop, List.length_take]
    omega
  · rw [List.length_map, length_rtake harity, labelOf, hcount]
  · rintro _ rfl
    exact ⟨(h.layout.setOperands _).setReg rfl, State.regs_setReg .., rfl⟩

/-! ## Branch tables -/

/-- A number with the bits of a natural one. -/
theorem eq_ofNat_iff {k : Nat} (hk : k < 2 ^ 32) :
    choice = Int32.ofNat k ↔ unsigned choice = k := by
  rw [← unsigned_inj, show unsigned (Int32.ofNat k) = k from toNat_ofNat hk]

/-- The range of the indices of a table. -/
theorem contains_indices {k : Nat} (hk : k < 2 ^ 31) :
    (Range.between 0 (Int32.ofNat k)).contains choice = true ↔ unsigned choice ≤ k := by
  have htoInt := toInt_eq_unsigned (n := choice)
  have hlt := unsigned_lt (n := choice)
  rw [contains_between, Int32.toInt_zero, Int32.toInt_ofNat_of_lt hk]
  split at htoInt <;> omega

section
variable {mnemonic : String} {labels : List Label} {height label default : UInt32}
  {table : List UInt32} {i j least : Nat} {jump : List Command}

/-- The branches of a table do nothing if another number is chosen. -/
theorem computes_branchCases_pass
    (h : branchCases mnemonic depth labels height i table pool = .ok ((cs, least), pool'))
    (hr : Resolved code ns pool pool') (hpass : ∀ j < table.length, choice ≠ Int32.ofNat (i + j))
    (ha : σ.regs .a = some choice) (hrest : Computes code ns ds σ Q) :
    Computes code ns (cs ++ ds) σ Q := by
  induction table generalizing i cs least pool with
  | nil =>
    obtain ⟨rfl, -, -⟩ := branchCases_nil.1 h
    exact hrest
  | cons label table ih =>
    obtain ⟨jump, target, jumps, least', pool₁, hjump, hjumps, rfl, -⟩ := branchCases_cons.1 h
    obtain ⟨lb, one, -, -, hone, rfl⟩ := branchIf_eq_ok.1 hjump
    have hne : choice ≠ Int32.ofNat i := hpass 0 (Nat.succ_pos _)
    rw [List.append_assoc]
    refine computes_guardedOne hone (hr.left (.of_branchCases hjumps)) (allows_ifIn_exact ha)
      (fun hb => absurd (of_decide_eq_true hb) hne) fun _ => ?_
    refine ih hjumps (hr.right (.of_branchIf hjump)) fun j hj => ?_
    rw [Nat.add_assoc, Nat.add_comm 1 j]
    exact hpass (j + 1) (Nat.succ_lt_succ hj)

/-- The branch of a table that is chosen is the only one that is set off. -/
theorem computes_branchCases_hit (ds : List Command)
    (h : branchCases mnemonic depth labels height i table pool = .ok ((cs, least), pool'))
    (hr : Resolved code ns pool pool') (hsize : i + table.length ≤ 2 ^ 32)
    (hlabel : table[j]? = some label) (hchoice : choice = Int32.ofNat (i + j))
    (ha : σ.regs .a = some choice) :
    ∃ t lb, labelAt labels depth label = .ok (t, lb) ∧ least ≤ t ∧
      (Computes code ns (branchCommands height t lb) σ
          (fun τ => τ.regs .a = some choice ∧ Computes code ns ds τ Q) →
        Computes code ns (cs ++ ds) σ Q) := by
  induction table generalizing i j cs least pool with
  | nil => cases hlabel
  | cons first table ih =>
    obtain ⟨jump, target, jumps, least', pool₁, hjump, hjumps, rfl, rfl⟩ := branchCases_cons.1 h
    obtain ⟨lb, one, hat, -, hone, rfl⟩ := branchIf_eq_ok.1 hjump
    have hr₁ := hr.left (.of_branchCases hjumps)
    have hr₂ := hr.right (.of_branchIf hjump)
    rw [List.length_cons] at hsize
    have hindex : unsigned choice = i + j := by
      have hj := (List.getElem?_eq_some_iff.1 hlabel).1
      rw [List.length_cons] at hj
      exact (eq_ofNat_iff (by omega)).1 hchoice
    cases j with
    | zero =>
      cases hlabel
      refine ⟨target, lb, hat, Nat.min_le_left _ _, fun hbranch => ?_⟩
      rw [List.append_assoc]
      refine computes_guardedOne hone hr₁ (allows_ifIn_exact ha) (fun _ => ?_)
        fun hb => absurd hchoice (of_decide_eq_false hb)
      refine hbranch.mono fun τ ⟨hτ, hrest⟩ =>
        computes_branchCases_pass hjumps hr₂ (fun j hj heq => ?_) hτ hrest
      have := (eq_ofNat_iff (by omega)).1 heq
      omega
    | succ j =>
      obtain ⟨t, lb', hat', hle, hcomputes⟩ := ih hjumps hr₂ (by omega) hlabel
        (by rw [hchoice]; congr 1; omega)
      refine ⟨t, lb', hat', Nat.le_trans (Nat.min_le_right _ _) hle, fun hbranch => ?_⟩
      rw [List.append_assoc]
      refine computes_guardedOne hone hr₁ (allows_ifIn_exact ha) (fun hb => ?_)
        fun _ => hcomputes hbranch
      have := (eq_ofNat_iff (by omega)).1 (of_decide_eq_true hb)
      omega

/-- The default of a table is taken unless the index is one of the table. -/
theorem computes_outsideTable
    (h : branchIf mnemonic depth labels height default (outsideTable table) pool =
      .ok ((jump, target), pool'))
    (hr : Resolved code ns pool pool') (hsize : table.length ≤ 2 ^ 31)
    (ha : σ.regs .a = some choice) : ∃ lb, labelAt labels depth default = .ok (target, lb) ∧
      (unsigned choice < table.length → Q σ → Computes code ns jump σ Q) ∧
      (table.length ≤ unsigned choice → Computes code ns (branchCommands height target lb) σ Q →
        Computes code ns jump σ Q) := by
  obtain ⟨lb, one, hat, -, hone, rfl⟩ := branchIf_eq_ok.1 h
  refine ⟨lb, hat, ?_⟩
  cases table with
  | nil =>
    refine ⟨fun hlt => absurd hlt (Nat.not_lt_zero _), fun _ hbranch => ?_⟩
    simpa [outsideTable] using computes_isOne hone hr hbranch
  | cons label table =>
    rw [List.length_cons] at hsize ⊢
    have hin : (Range.between 0 (Int32.ofNat table.length)).contains choice = true ↔
        unsigned choice ≤ table.length := contains_indices (by omega)
    have hguard : σ.allows (.unlessIn .a (.between 0 (Int32.ofNat table.length))) = _ :=
      allows_unlessIn ha
    refine ⟨fun hlt hσ => computes_guardedLast hone hr hguard (fun hb => ?_) fun _ => .nil hσ,
      fun hle hbranch => computes_guardedLast hone hr hguard (fun _ => hbranch) fun hb => ?_⟩
    · rw [hin.2 (by omega)] at hb
      cases hb
    · rw [Bool.not_eq_false'] at hb
      have := hin.1 hb
      omega

/-- **Branch tables.**  One branch is set off: that to the label which is selected. -/
theorem computes_branchTable
    (hcases : branchCases mnemonic depth labels height 0 table pool = .ok ((cs, least), pool₁))
    (hdefault : branchIf mnemonic depth labels height default (outsideTable table) pool₁ =
      .ok ((jump, target), pool'))
    (hr : Resolved code ns pool pool') (hsize : table.length ≤ 2 ^ 31)
    (ha : σ.regs .a = some choice) :
    ∃ t lb, labelAt labels depth (selectLabel table default choice) = .ok (t, lb) ∧
      min least target ≤ t ∧ (Computes code ns (branchCommands height t lb) σ
          (fun τ => τ.regs .a = some choice ∧ Q τ) → Computes code ns (cs ++ jump) σ Q) := by
  have hr₁ := hr.left (.of_branchIf hdefault)
  have hr₂ := hr.right (.of_branchCases hcases)
  have hlt := unsigned_lt (n := choice)
  have hself : choice = Int32.ofNat (0 + unsigned choice) :=
    (eq_ofNat_iff (by omega)).2 (Nat.zero_add _).symm
  unfold selectLabel
  rw [List.getD_eq_getElem?_getD]
  cases hlabel : table[unsigned choice]? with
  -- One case is taken, and the test for the default behind it skips.
  | some label =>
    have hlt := (List.getElem?_eq_some_iff.1 hlabel).1
    obtain ⟨t, lb, hat, hle, hcomputes⟩ := computes_branchCases_hit jump hcases
      hr₁ (by omega) hlabel hself ha
    refine ⟨t, lb, hat, Nat.le_trans (Nat.min_le_left _ _) hle, fun hbranch => ?_⟩
    refine hcomputes (hbranch.mono fun τ ⟨hτ, hQ⟩ => ⟨hτ, ?_⟩)
    obtain ⟨_, -, hskip, -⟩ := computes_outsideTable (Q := Q) hdefault hr₂ hsize hτ
    exact hskip hlt hQ
  -- Beyond the table no case is equal to the choice.
  | none =>
    have hle := List.getElem?_eq_none_iff.1 hlabel
    obtain ⟨lb, hat, -, htake⟩ := computes_outsideTable (Q := Q) hdefault hr₂ hsize ha
    refine ⟨target, lb, hat, Nat.min_le_right _ _, fun hbranch => ?_⟩
    refine computes_branchCases_pass hcases hr₁ (fun j hj heq => ?_) ha
      (htake hle (hbranch.mono fun τ hτ => hτ.2))
    have := (eq_ofNat_iff (by omega)).1 heq
    omega

end

/-! ## Operands of constructs -/

/-- The operands of a construct lie on those of the code around it. -/
theorem Layout.over_append_with :
    (l.over (outer ++ xs)).with ⟨ys, ls, gs⟩ = (l.over outer).with ⟨xs ++ ys, ls, gs⟩ := by
  rw [← Layout.over_over, Layout.over_with]

theorem rests_over_append : Rests ns (l.over (outer ++ xs)) ⟨ys, ls, gs⟩ σ ↔
    Rests ns (l.over outer) ⟨xs ++ ys, ls, gs⟩ σ := by
  constructor
  · rintro ⟨h, hidle⟩
    exact ⟨Layout.over_append_with ▸ h, hidle⟩
  · rintro ⟨h, hidle⟩
    exact ⟨Layout.over_append_with ▸ h, hidle⟩

namespace Arrives

/-- Behind a construct its operands are operands of the code around it. -/
theorem narrow (h : Arrives ns l (outer ++ xs) depth bounds target o ⟨ys, ls, gs⟩ σ)
    (hbounds : ∀ b ∈ bounds, b.base ≤ outer.length) :
    Arrives ns l outer depth bounds target o ⟨if o = .next then xs ++ ys else ys, ls, gs⟩ σ := by
  cases h with
  | next h => exact .next (rests_over_append.1 h)
  | branch hlabel hb htarget hdepth h =>
    rw [if_neg (by rintro rfl; cases hlabel)]
    rw [List.take_append_of_le_length (hbounds _ (List.mem_of_getElem? hb))] at h
    exact .branch hlabel hb htarget hdepth h

/-- A branch that does not go to a construct is under way behind it as well. -/
theorem pass (h : Arrives ns l outer (depth + 1) (⟨outer.length, arity⟩ :: bounds) target o v σ)
    (ho : o ≠ .branch 0) : Arrives ns l outer depth bounds target o.behind v σ := by
  cases h with
  | next h => exact .next h
  | @branch _ _ _ n b hlabel hb htarget hdepth h =>
    cases n with
    | zero => exact absurd (Outcome.eq_branch_zero hlabel) ho
    | succ n =>
      rw [Nat.add_sub_add_right] at htarget hdepth
      exact .branch (Outcome.label?_behind hlabel) hb htarget hdepth h

/-- Where a branch to the innermost construct arrives. -/
theorem arrived (h : Arrives ns l outer (depth + 1) (⟨outer.length, arity⟩ :: bounds) target
      (.branch 0) v σ) : target ≤ depth + 1 ∧ σ.regs .brDepth = some (Int32.ofNat (depth + 1)) ∧
    ((l.over outer).with { v with stack := v.stack.rtake arity }).In ns σ := by
  cases h with
  | branch hlabel hb htarget hdepth h =>
    cases hlabel
    cases hb
    rw [List.take_length] at h
    exact ⟨htarget, hdepth, h⟩

/-- A branch to the innermost construct is the only one that is at its depth. -/
theorem at_depth (h : Arrives ns l outer (depth + 1) (⟨outer.length, arity⟩ :: bounds) target o v σ)
    (hnest : depth + 1 ≤ maxNesting) : ∃ d, σ.regs .brDepth = some d ∧
      (d = Int32.ofNat (depth + 1) ↔ o = .branch 0) := by
  have hmax : maxNesting < 2 ^ 31 := by decide
  cases h with
  | next h => exact ⟨_, h.idle, iff_of_false (ofNat_ne_noBranch hnest).symm (by decide)⟩
  | @branch _ _ _ n b hlabel hb htarget hdepth h =>
    refine ⟨_, hdepth, ?_⟩
    cases n with
    | zero => exact iff_of_true rfl (Outcome.eq_branch_zero hlabel)
    | succ n =>
      refine iff_of_false (fun heq => ?_) (by rintro rfl; cases hlabel)
      have := congrArg Int32.toInt heq
      rw [Int32.toInt_ofNat_of_lt (by omega), Int32.toInt_ofNat_of_lt (by omega)] at this
      omega

end Arrives

/-! ## Catching a branch -/

/-- The command at the end of a construct, if there is one, ends a branch to it. -/
theorem computes_catch
    (h : Arrives ns l outer (depth + 1) (⟨outer.length, arity⟩ :: bounds) target o
      ⟨ys, ls, gs⟩ σ) (hnest : depth + 1 ≤ maxNesting) :
    Computes code ns (if target ≤ depth + 1 then [catchBranch (depth + 1)] else []) σ
      (Arrives ns l outer depth bounds target o.behind
        ⟨if o = .branch 0 then ys.rtake arity else ys, ls, gs⟩) := by
  by_cases ho : o = .branch 0
  · subst ho
    obtain ⟨htarget, hdepth, hin⟩ := h.arrived
    rw [if_pos htarget, if_pos rfl]
    exact .ifIn contains_exact hdepth (fun _ => .set (.nil (.next ⟨hin.setReg rfl, idle_setReg⟩)))
      fun hne => absurd rfl hne
  · rw [if_neg ho]
    have hpass := h.pass ho
    split
    · obtain ⟨d, hd, hiff⟩ := h.at_depth hnest
      exact .ifIn contains_exact hd (fun heq => absurd (hiff.1 heq) ho) fun _ => .nil hpass
    · exact .nil hpass

/-- **Constructs.**  A construct leaves what its code leaves it to, with its label caught. -/
theorem computes_closed {b : Block} {next : UInt32} (hbounds : ∀ b ∈ bounds, b.base ≤ outer.length)
    (hnest : depth + 1 ≤ maxNesting)
    (h : Computes code ns b.commands σ (Arrives ns l (outer ++ xs) (depth + 1)
      (⟨(outer ++ xs).length, arity⟩ :: bounds) b.target o ⟨ys, ls, gs⟩)) :
    Computes code ns (closed depth b next).commands σ fun τ =>
      Arrives ns l outer depth bounds (closed depth b next).flow.target o.behind
        ⟨o.leaves arity xs ys, ls, gs⟩ τ ∧ Admits (closed depth b next).flow o.behind τ := by
  refine h.seq fun τ hτ => (computes_catch hτ hnest).mono fun υ hυ => ?_
  rw [Outcome.leaves_eq]
  exact (hυ.narrow hbounds).escape (Nat.le_of_succ_le hnest)

/-! ## Arms -/

/-- The topmost operand is put aside as a condition. -/
theorem steps_putAside {v : Nbt} (hstack : σ.operands = some (entries (vs ++ [v])))
    (hconditions : σ.conditions = some (entries ws)) :
    Steps tags ns (.appendFrom .conditions top) σ [] (σ.setConditions (ws ++ [v])) :=
  .plain (.appendFrom _ _) (performs_appendFrom ⟨"stack", _, rfl⟩
    (State.lookup_operand hstack (position?_top vs) getElem?_top)
    (performs_append (k := "conditions") rfl hconditions (Nbt.append_listOf (f := id) (x := v))))

/-- The condition that was put aside last is loaded. -/
theorem steps_loadCondition (h : σ.conditions = some (entries (ws ++ [.int x]))) :
    Steps tags ns (.load r (Path.conditions.index (-1))) σ [] (σ.setReg r x) := by
  have hlookup : σ.lookup ns (Path.conditions.index (-1)) = some (.stored (.int x)) := by
    show (σ.cells sharedId "conditions").bind (fun w => w.lookup [.index (-1)]) = _
    rw [show σ.cells sharedId "conditions" = _ from h]
    exact Nbt.lookup_listOf (f := id) (position?_top ws) getElem?_top
  exact .stored (.getData _) (performs_getData ⟨"conditions", _, rfl⟩ hlookup) stores_score

/-- The condition that was put aside last is dropped. -/
theorem steps_dropCondition {v : Nbt} (h : σ.conditions = some (entries (ws ++ [v]))) :
    Steps tags ns (.remove (Path.conditions.index (-1))) σ [] (σ.setConditions ws) :=
  .plain (.remove _) (performs_remove (k := "conditions") rfl (List.cons_ne_nil _ _) h
    (Nbt.remove_listOf_last (f := id)))

namespace Arrives

theorem conditions (h : Arrives ns l outer depth bounds target o v σ) :
    σ.conditions = some (entries l.conditions) := by
  cases h with
  | next h => exact h.layout.conditions
  | branch _ _ _ _ h => exact h.conditions

/-- Conditions are no part of what an outcome tells. -/
theorem setConditions (h : Arrives ns l outer depth bounds target o v σ) (ws : List Nbt) :
    Arrives ns { l with conditions := ws } outer depth bounds target o v (σ.setConditions ws) := by
  cases h with
  | next h => exact .next ⟨h.layout.setConditions ws, h.idle⟩
  | branch hlabel hb htarget hdepth h =>
    exact .branch hlabel hb htarget hdepth (h.setConditions ws)

theorem setA {n : Int32} (h : Arrives ns l outer depth bounds target o v σ) :
    Arrives ns l outer depth bounds target o v (σ.setReg .a n) := by
  cases h with
  | next h => exact .next (h.setReg rfl (by decide))
  | branch hlabel hb htarget hdepth h =>
    exact .branch hlabel hb htarget hdepth (h.setReg rfl)

end Arrives

section
variable {outer' : List Int32} {alternative : Command}
  (hr : Resolved code ns pool pool')
  (harm : ∀ ws τ, Rests ns (Layout.over { l with conditions := ws } outer) ⟨xs, ls, gs⟩ τ →
    Computes code ns (if choice = 0 then second else first) τ
      (Arrives ns { l with conditions := ws } outer' depth bounds target o v))
include hr harm

/-- Without anything to do in the second arm, the first one is guarded by the condition itself. -/
theorem computes_choose_none (hone : IsOne pool first one pool') (hsecond : second = [])
    (h : Rests ns (l.over outer) ⟨xs ++ [choice], ls, gs⟩ σ) :
    Computes code ns (choose one none) σ (Arrives ns l outer' depth bounds target o v) := by
  refine .popA h fun τ hτ ha => ?_
  have hrun := harm l.conditions τ hτ
  refine computes_guardedLast hone hr (allows_unlessIn_exact ha) (fun hb => ?_) fun hb => ?_
  · have hne : choice ≠ 0 := by simpa using hb
    rwa [if_neg hne] at hrun
  · have hz : choice = 0 := by simpa using hb
    rwa [if_pos hz, hsecond] at hrun

/-- The first arm runs if the condition that was put aside is not zero. -/
theorem computes_firstArm {ws : List Nbt} (hone : IsOne pool first one pool')
    (h : Rests ns (Layout.over { l with conditions := ws ++ [.int choice] } outer) ⟨xs, ls, gs⟩ σ) :
    Computes code ns (one.toList.flatMap fun c =>
        [.load .a (Path.conditions.index (-1)), c.unlessIn .a (.exact 0)]) σ fun τ =>
      if choice = 0
        then Rests ns (Layout.over { l with conditions := ws ++ [.int choice] } outer)
          ⟨xs, ls, gs⟩ τ
        else
          Arrives ns { l with conditions := ws ++ [.int choice] } outer' depth bounds target o v
            τ := by
  by_cases hz : choice = 0
  · simp only [if_pos hz]
    cases one with
    | none => exact .nil h
    | some c =>
      refine .plain (steps_loadCondition h.layout.conditions) ?_
      exact .unlessIn contains_exact (State.regs_setReg ..) (fun hne => absurd hz hne)
        fun _ => .nil (h.setReg rfl (by decide))
  · simp only [if_neg hz]
    have hrun := fun τ => harm (ws ++ [.int choice]) τ
    simp only [if_neg hz] at hrun
    cases one with
    | none =>
      cases hone
      exact hrun σ h
    | some c =>
      refine .plain (steps_loadCondition h.layout.conditions) ?_
      exact .unlessIn contains_exact (State.regs_setReg ..)
        (fun _ => computes_isOne hone hr (hrun _ (h.setReg rfl (by decide))))
        fun heq => absurd heq hz

/-- The second arm runs if the condition that was put aside is zero, and the condition is dropped
    behind both. -/
theorem computes_secondArm {ws : List Nbt} (hother : IsOne pool second (some alternative) pool')
    (h : if choice = 0
      then Rests ns (Layout.over { l with conditions := ws ++ [.int choice] } outer) ⟨xs, ls, gs⟩ σ
      else
        Arrives ns { l with conditions := ws ++ [.int choice] } outer' depth bounds target o v σ) :
    Computes code ns [.load .a (Path.conditions.index (-1)), alternative.ifIn .a (.exact 0),
        .remove (Path.conditions.index (-1))] σ
      (Arrives ns { l with conditions := ws } outer' depth bounds target o v) := by
  have hdrop : ∀ τ, Arrives ns { l with conditions := ws ++ [.int choice] } outer' depth bounds
      target o v τ → Computes code ns [.remove (Path.conditions.index (-1))] τ
        (Arrives ns { l with conditions := ws } outer' depth bounds target o v) := fun τ hτ =>
    .plain (steps_dropCondition hτ.conditions) (.nil (hτ.setConditions ws))
  by_cases hz : choice = 0
  · rw [if_pos hz] at h
    have hrun := harm (ws ++ [.int choice]) (σ.setReg .a choice) (h.setReg rfl (by decide))
    rw [if_pos hz] at hrun
    refine .plain (steps_loadCondition h.layout.conditions) ?_
    exact .ifIn contains_exact (State.regs_setReg ..)
      (fun _ => (computes_isOne hother hr hrun).seq hdrop) fun hne => absurd hz hne
  · rw [if_neg hz] at h
    refine .plain (steps_loadCondition h.conditions) ?_
    exact .ifIn contains_exact (State.regs_setReg ..) (fun heq => absurd heq hz)
      fun _ => hdrop _ h.setA

end

/-- **Choices.**  One of two arms runs, and whatever it does, the condition is gone behind it. -/
theorem computes_choose {outer' : List Int32} (hone : IsOne pool first one pool₁)
    (hother : IsOne pool₁ second other pool') (hr : Resolved code ns pool pool')
    (harm : ∀ ws τ, Rests ns (Layout.over { l with conditions := ws } outer) ⟨xs, ls, gs⟩ τ →
      Computes code ns (if choice = 0 then second else first) τ
        (Arrives ns { l with conditions := ws } outer' depth bounds target o v))
    (h : Rests ns (l.over outer) ⟨xs ++ [choice], ls, gs⟩ σ) :
    Computes code ns (choose one other) σ (Arrives ns l outer' depth bounds target o v) := by
  cases other with
  | none =>
    cases hother
    exact computes_choose_none hr harm hone rfl h
  | some alternative =>
    have hput : Rests ns (Layout.over { l with conditions := l.conditions ++ [.int choice] } outer)
        ⟨xs ++ [choice], ls, gs⟩ (σ.setConditions (l.conditions ++ [.int choice])) :=
      ⟨h.layout.setConditions _, h.idle⟩
    have hfront : Computes code ns [.appendFrom .conditions top, .dropOperand] σ
        (Rests ns (Layout.over { l with conditions := l.conditions ++ [.int choice] } outer)
          ⟨xs, ls, gs⟩) :=
      .plain (steps_putAside h.layout.operands_append h.layout.conditions)
        (.drop hput fun τ hτ _ => .nil hτ)
    exact (hfront.seq fun τ hτ =>
      computes_firstArm (hr.left (.of_isOne hother)) harm hone hτ).seq fun τ hτ =>
        computes_secondArm (hr.right (.of_isOne hone)) harm hother hτ

end Machine

end WasmPack
