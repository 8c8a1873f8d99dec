/-
  WasmPack.Proofs.Operands.Branches

  Branches with operands.  A branch under way has what its label takes above the
  height of the label.  A piece of code is left with such a branch, or with as many
  operands as code generation reckons with behind it.
-/
import WasmPack.Proofs.Execution.Dispatch
import WasmPack.Proofs.Operands.Runs

namespace WasmPack

/-- Everything but `#br_depth` and the operand stack. -/
def Writes.beside : Writes := ⟨fun r => decide (r ≠ .brDepth), fun k => decide (k ≠ "stack")⟩

/-- The numbers of the label are such that commands can count with them. -/
structure Compile.Label.Fits (l : Label) : Prop where
  height : l.height.toNat < 2 ^ 31
  arity : l.arity.toNat < 2 ^ 31

namespace Machine

open Compile Nbt Wasm

variable {code : Code} {ns : String} {below : List Nbt} {labels : List Label} {l : Label}
  {d e h i k m n t target u : Nat} {σ : State} {I J : State → Prop} {c : Command}
  {cs : List Command} {g : Modifier} {one other : Option Command} {V : Option Nbt}
  {height : UInt32}

/-! ## Branches under way -/

/-- A branch to a depth from `t` to `d` is under way, with the operands that its label takes. -/
def Departs (below : List Nbt) (labels : List Label) (d t : Nat) (σ : State) : Prop :=
  ∃ u l, t ≤ u ∧ u ≤ d ∧ labels[u]? = some l ∧ σ.regs .brDepth = some (Int32.ofNat u) ∧
    Stacked below l.full σ

/-- No branch is under way, and as many operands are there, or a branch is. -/
def Left (below : List Nbt) (labels : List Label) (e d t : Nat) (σ : State) : Prop :=
  Level below e σ ∨ Departs below labels d t σ

theorem Departs.mono (hσ : Departs below labels d t σ) (ht : u ≤ t) :
    Departs below labels d u σ := by
  obtain ⟨k, l, htk, hk⟩ := hσ
  exact ⟨k, l, Nat.le_trans ht htk, hk⟩

theorem Departs.stacked (hσ : Departs below labels d t σ) : Stacked below 0 σ := by
  obtain ⟨k, l, -, -, -, -, hstacked⟩ := hσ
  exact hstacked.mono (Nat.zero_le _)

/-- A branch under way is not taken for none. -/
theorem Departs.not_idle (hσ : Departs below labels d t σ) (hd : d ≤ maxNesting) : ¬Idle σ := by
  obtain ⟨k, l, -, hkd, -, hk, -⟩ := hσ
  exact fun hidle => ofNat_ne_noBranch (Nat.le_trans hkd hd) (Option.some.inj (hk.symm.trans hidle))

namespace Left

theorem stacked (hσ : Left below labels e d t σ) : Stacked below 0 σ :=
  hσ.elim (fun h => h.1.mono (Nat.zero_le _)) Departs.stacked

theorem mono (hσ : Left below labels e d t σ) (he : k ≤ e) (ht : u ≤ t) :
    Left below labels k d u σ := hσ.imp (·.mono he) (·.mono ht)

/-- Where no branch can be under way, none is. -/
theorem settled (hσ : Left below labels e d t σ) (hlt : d < t) : Level below e σ := by
  refine hσ.resolve_right fun ⟨k, l, htk, hkd, _⟩ => ?_
  exact absurd (Nat.le_trans htk hkd) (Nat.not_le_of_lt hlt)

theorem idle_of_allows (ha : σ.allows .ifNoBranch = some true) : Idle σ := by
  cases hdepth : σ.regs .brDepth with
  | none =>
    have hnone : (σ.regs .brDepth).map (Range.exact noBranch).contains = some true := ha
    rw [hdepth] at hnone
    cases hnone
  | some k =>
    rw [Modifier.ifNoBranch, allows_ifIn_exact hdepth, Option.some.injEq, decide_eq_true_eq] at ha
    exact hdepth.trans (congrArg some ha)

theorem resumed (hσ : Left below labels e d t σ) (hd : d ≤ maxNesting)
    (ha : σ.allows .ifNoBranch = some true) : Level below e σ :=
  hσ.resolve_right fun h => h.not_idle hd (idle_of_allows ha)

/-- Behind a construct that has been left, nothing that follows runs. -/
theorem skipped (hσ : Left below labels e d t σ) (ha : σ.allows .ifNoBranch = some false) :
    Departs below labels d t σ := by
  refine hσ.resolve_left fun h => ?_
  rw [Modifier.ifNoBranch, allows_ifIn_exact h.2] at ha
  cases (Option.some.inj ha).symm.trans (decide_eq_true rfl)

section Label

variable (hσ : Left below (labels ++ [l]) e (d + 1) t σ) (hlen : labels.length = d + 1)

include hσ hlen

/-- A branch that has arrived has the operands that its label takes. -/
theorem arrived (hnest : d + 1 ≤ maxNesting)
    (ha : σ.allows (.ifIn .brDepth (.exact (Int32.ofNat (d + 1)))) = some true) :
    Stacked below l.full σ := by
  have hdepth : ∀ {v}, σ.regs .brDepth = some v → v = Int32.ofNat (d + 1) := by
    intro v hv
    rwa [allows_ifIn_exact hv, Option.some.injEq, decide_eq_true_eq] at ha
  obtain hσ | ⟨u, l', -, hud, hl, hu, hstacked⟩ := hσ
  · exact absurd (hdepth hσ.2).symm (ofNat_ne_noBranch hnest)
  · obtain rfl : u = d + 1 := by
      have hmax : maxNesting < 2 ^ 31 := by decide
      have hint := congrArg Int32.toInt (hdepth hu)
      rw [Int32.toInt_ofNat_of_lt (by omega), Int32.toInt_ofNat_of_lt (by omega)] at hint
      exact Int.ofNat_inj.1 hint
    rw [← hlen, List.getElem?_concat_length] at hl
    cases hl
    exact hstacked

/-- A branch that has not arrived goes further. -/
theorem passed (ha : σ.allows (.ifIn .brDepth (.exact (Int32.ofNat (d + 1)))) = some false) :
    Left below labels e d t σ := by
  refine hσ.imp_right fun ⟨u, l', htu, hud, hl, hu, hstacked⟩ => ?_
  rw [allows_ifIn_exact hu, Option.some.injEq, decide_eq_false_iff_not] at ha
  have hne : u ≠ d + 1 := fun h => ha (congrArg Int32.ofNat h)
  rw [List.getElem?_append_left (by omega)] at hl
  exact ⟨u, l', htu, by omega, hl, hu, hstacked⟩

end Label

end Left

/-! ## What does not matter -/

theorem beside_among_unstacked : Writes.beside.Among .unstacked :=
  ⟨fun _ _ => rfl, fun _ hk => hk⟩

theorem ignores_depth (below : List Nbt) (h : Nat) (v : Int32) :
    Ignores .beside (fun σ => σ.regs .brDepth = some v ∧ Stacked below h σ) :=
  (ignores_regs rfl (· = some v)).and ((ignores_stacked below h).mono beside_among_unstacked)

theorem ignores_level (below : List Nbt) (h : Nat) : Ignores .beside (Level below h) :=
  ((ignores_stacked below h).mono beside_among_unstacked).and (ignores_regs rfl (· = some noBranch))

theorem ignores_left (below : List Nbt) (labels : List Label) (e d t : Nat) :
    Ignores .beside (Left below labels e d t) := by
  have hlevel := ignores_level below e
  refine ⟨fun v hσ hr => hσ.imp (hlevel.setReg v · hr) ?_,
    fun hσ hk h => hσ.imp (hlevel.agree · hk h) ?_⟩
  · rintro ⟨u, l, htu, hud, hl, hu⟩
    exact ⟨u, l, htu, hud, hl, (ignores_depth below l.full _).setReg v hu hr⟩
  · rintro ⟨u, l, htu, hud, hl, hu⟩
    exact ⟨u, l, htu, hud, hl, (ignores_depth below l.full _).agree hu hk h⟩

/-! ## Guards and arms -/

/-- A command under a condition. -/
theorem triple_guarded (hg : g.IsCondition) (hI : ∀ σ, I σ → Stacked below 0 σ)
    (h : Triple code (StackSafe below) n ns [c] (fun σ => I σ ∧ σ.allows g = some true) J)
    (hblocked : ∀ σ, I σ → σ.allows g = some false → J σ) :
    Triple code (StackSafe below) n ns [c.guarded g] I J := by
  cases n with
  | zero => exact fun _ _ => Along.zero
  | succ n =>
    exact .guarded hg (fun s σ hs hσ => .guarded hg (hI σ hσ) fun ha => h.now hs ⟨hσ, ha⟩) h
      hblocked

/-- An arm as one command. -/
theorem triple_arm (hc : IsArm code ns cs (some c)) (hI : ∀ σ, I σ → Stacked below 0 σ)
    (hcs : Triple code (StackSafe below) n ns cs I J) :
    Triple code (StackSafe below) n ns [c] I J := by
  cases hc with
  | one hone => exact hone ▸ hcs
  | fragment hid =>
    cases n with
    | zero => exact fun _ _ => Along.zero
    | succ n =>
      refine .call (fun σ hσ => .call (hI σ hσ) _) fun f hf => ?_
      cases hid.symm.trans hf
      exact hcs.of_le (Nat.le_succ n)

/-! ## Branches -/

/-- Commands that only drop keep whatever does not depend on the stack. -/
theorem triple_drops {i : Int32} (hI : Ignores .stack I) (hneg : i.toInt < 0)
    (hlow : -((k + 1 : Nat) : Int) ≤ i.toInt) (m : Nat) : Triple code (StackSafe below) n ns
      (List.replicate m (.remove (.operand i))) (fun σ => Stacked below (k + m) σ ∧ I σ)
      (fun σ => Stacked below k σ ∧ I σ) := by
  induction m with
  | zero => exact .nil fun _ hσ => hσ
  | succ m ih =>
    have hlow' : -((k + m + 1 : Nat) : Int) ≤ i.toInt := by omega
    exact .cons (.moves (fun σ hσ => .drop hσ.1 hlow' hneg) (moves_drop hI hlow' hneg)) ih

/-- A branch finds the operands that its label takes. -/
structure Aims (labels : List Label) (d : Nat) (height : UInt32) (target : Nat) (l : Label) :
    Prop where
  le : target ≤ d
  label : labels[target]? = some l
  full : l.full ≤ height.toNat
  few : l.arity.toNat < 2 ^ 31

/-- Where the numbers of a label do not exceed the range, their sum is the true one. -/
theorem toNat_keep (h : l.full < 2 ^ 32) : (l.height + l.arity).toNat = l.full := by
  rw [UInt32.toNat_add]
  exact Nat.mod_eq_of_lt h

theorem keep_le_iff (h : l.full < 2 ^ 32) :
    l.height + l.arity ≤ height ↔ l.full ≤ height.toNat := by
  rw [UInt32.le_iff_toNat_le, toNat_keep h]

/-- How many operands a branch drops. -/
theorem toNat_excess (h : l.full ≤ height.toNat) :
    (height - (l.height + l.arity)).toNat = height.toNat - l.full := by
  have hfull := Nat.lt_of_le_of_lt h height.toNat_lt
  rw [UInt32.toNat_sub_of_le _ _ ((keep_le_iff hfull).2 h), toNat_keep hfull]

theorem Aims.of_labelAt {label : UInt32} (hl : labelAt labels d label = .ok (target, l))
    (hfull : l.full ≤ height.toNat) (hfits : ∀ l ∈ labels, l.Fits) :
    Aims labels d height target l := by
  obtain ⟨-, rfl, hl⟩ := labelAt_eq_ok.1 hl
  exact ⟨Nat.sub_le _ _, hl, hfull, (hfits l (List.mem_of_getElem? hl)).arity⟩

theorem Aims.departs (ha : Aims labels d height target l) (hσ : Stacked below l.full σ) :
    Departs below labels d target (σ.setReg .brDepth (Int32.ofNat target)) :=
  ⟨target, l, Nat.le_refl _, ha.le, ha.label, State.regs_setReg _ _ _ _, hσ⟩

theorem toInt_dropIndex {arity : UInt32} (h : arity.toNat < 2 ^ 31) :
    (-arity.toInt32 - 1).toInt = -(arity.toNat : Int) - 1 := by
  have hofNat : arity.toInt32 = Int32.ofNat arity.toNat := by
    refine Int32.toBitVec_inj.1 (BitVec.eq_of_toNat_eq ?_)
    show arity.toNat = (BitVec.ofNat 32 arity.toNat).toNat
    rw [BitVec.toNat_ofNat, Nat.mod_eq_of_lt arity.toNat_lt]
  have hone : (1 : Int32).toInt = 1 := rfl
  rw [Int32.toInt_sub, Int32.toInt_neg, hofNat, Int32.toInt_ofNat_of_lt h, hone,
    Int.bmod_eq_of_le (n := -(arity.toNat : Int)) (by omega) (by omega),
    Int.bmod_eq_of_le (by omega) (by omega)]

/-- A branch drops the operands between those that it brings and the height of its label. -/
theorem triple_jump (ha : Aims labels d height target l) (hI : Ignores .stack I)
    (hJ : ∀ σ, Stacked below l.full σ → I σ → J (σ.setReg .brDepth (Int32.ofNat target))) :
    Triple code (StackSafe below) n ns (branchCommands height target l)
      (fun σ => Stacked below height.toNat σ ∧ I σ) J := by
  have hindex := toInt_dropIndex ha.few
  have hfull : l.full = l.height.toNat + l.arity.toNat := rfl
  have hexcess : height.toNat = l.full + (height - (l.height + l.arity)).toNat := by
    rw [toNat_excess ha.full, Nat.add_sub_cancel' ha.full]
  rw [hexcess]
  exact .seq (triple_drops hI (by omega) (by omega) _)
    (.moves (fun σ hσ => .of_staysIn (C := .nothing) hσ.1 rfl) (.setScore fun σ hσ =>
      hJ σ hσ.1 hσ.2))

/-! ## Branches under a condition -/

/-- What holds behind an instruction that things go on behind with a guard. -/
structure Guarded (below : List Nbt) (labels : List Label) (h d t : Nat) (g : Modifier)
    (σ : State) : Prop where
  condition : g.IsCondition
  left : Left below labels h d t σ
  resumed : σ.allows g = some true → Level below h σ
  skipped : σ.allows g = some false → Departs below labels d t σ

/-- What holds behind an instruction, by how things go on. -/
def Behind (below : List Nbt) (labels : List Label) (d : Nat) : Flow → State → Prop
  | .next height => Level below height.toNat
  | .guarded height target g => Guarded below labels height.toNat d target g
  | .stop target => Departs below labels d target

theorem Level.stacked (hσ : Level below h σ) : Stacked below 0 σ := hσ.1.mono (Nat.zero_le _)

theorem ignores_stack_at {p : Option Int32 → Prop} {r : Register} (V : Option Nbt) :
    Ignores .stack (fun σ => p (σ.regs r) ∧ σ.conditions = V) := by
  refine ⟨fun _ _ (hr : false = true) => (nomatch hr), fun {σ τ id key} hσ hk h => ⟨?_, ?_⟩⟩
  · rw [h.1]
    exact hσ.1
  · refine (h.2 _ _ (.inr ?_)).trans hσ.2
    rw [of_decide_eq_true hk]
    decide

/-- A branch that is taken unless the condition is zero. -/
theorem triple_jumpIf (ha : Aims labels d height target l)
    (hc : IsArm code ns (branchCommands height target l) (some c)) (V : Option Nbt) :
    Triple code (StackSafe below) n ns [c.unlessIn .a (.exact 0)]
      (At V (Level below height.toNat))
      (At V (Guarded below labels height.toNat d target (.ifIn .a (.exact 0)))) := by
  have hnot : ∀ {σ : State} {b : Bool}, σ.allows (.unlessIn .a (.exact 0)) = some b →
      σ.allows (.ifIn .a (.exact 0)) = some (!b) := by
    intro σ b hb
    have hmap : (σ.allows (.ifIn .a (.exact 0))).map (!·) = some b := hb
    obtain ⟨x, hx, rfl⟩ := Option.map_eq_some_iff.1 hmap
    rw [hx, Bool.not_not]
  have hnonzero : Ignores .stack (fun σ => σ.allows (.ifIn .a (.exact 0)) = some false ∧
      σ.conditions = V) := ignores_stack_at (p := fun a => a.map _ = some false) V
  refine triple_guarded (Modifier.isCondition_unlessIn _ _) (fun σ hσ => hσ.1.stacked)
    (triple_arm hc (fun σ hσ => hσ.1.1.stacked) ((triple_jump ha hnonzero
      fun σ hσ hI => ?_).weaken (fun σ hσ => ⟨hσ.1.1.1, hnot hσ.2, hσ.1.2⟩) fun _ hσ => hσ))
    fun σ hσ hb => ?_
  · have hdeparts := ha.departs hσ
    refine ⟨⟨Modifier.isCondition_ifIn _ _, .inr hdeparts, fun htrue => ?_, fun _ => hdeparts⟩,
      hI.2⟩
    cases hI.1.symm.trans htrue
  · refine ⟨⟨Modifier.isCondition_ifIn _ _, .inl hσ.1, fun _ => hσ.1, fun hfalse => ?_⟩, hσ.2⟩
    cases (hnot hb).symm.trans hfalse

/-! ## Tables -/

/-- The entries of a table in front of a number: if one of them was selected, its branch is under
    way. -/
def Selected (below : List Nbt) (labels : List Label) (h d t i : Nat) (σ : State) : Prop :=
  (Level below h σ ∧ ∀ j < i, σ.regs .a ≠ some (Int32.ofNat j)) ∨
    Departs below labels d t σ ∧ ∃ j < i, σ.regs .a = some (Int32.ofNat j)

theorem Selected.mono (hσ : Selected below labels h d t i σ) (ht : u ≤ t) :
    Selected below labels h d u i σ := hσ.imp_right fun h => ⟨h.1.mono ht, h.2⟩

theorem Selected.stacked (hσ : Selected below labels h d t i σ) : Stacked below 0 σ :=
  hσ.elim (fun h => h.1.stacked) fun h => h.1.stacked

/-- An entry of a table. -/
theorem triple_entry (ha : Aims labels d height target l)
    (hc : IsArm code ns (branchCommands height target l) (some c)) (hi : i < 2 ^ 31)
    (V : Option Nbt) :
    Triple code (StackSafe below) n ns [c.ifIn .a (.exact (Int32.ofNat i))]
      (At V (Selected below labels height.toNat d t i))
      (At V (Selected below labels height.toNat d (min target t) (i + 1))) := by
  have hvalue : ∀ {σ : State}, σ.allows (.ifIn .a (.exact (Int32.ofNat i))) = some true →
      σ.regs .a = some (Int32.ofNat i) := by
    intro σ htrue
    obtain ⟨v, hv, hin⟩ := Option.map_eq_some_iff.1 htrue
    rw [hv, contains_exact.1 hin]
  have hR : Ignores .stack (fun σ => σ.regs .a = some (Int32.ofNat i) ∧ σ.conditions = V) :=
    ignores_stack_at (p := fun a => a = some (Int32.ofNat i)) V
  refine triple_guarded (Modifier.isCondition_ifIn _ _) (fun σ hσ => hσ.1.stacked)
    (triple_arm hc (fun σ hσ => hσ.1.1.stacked) ((triple_jump ha hR fun σ hσ hI => ?_).weaken
      (fun σ hσ => ?_) fun _ hσ => hσ)) fun σ hσ hb => ⟨?_, hσ.2⟩
  · exact ⟨.inr ⟨(ha.departs hσ).mono (Nat.min_le_left _ _), i, Nat.lt_succ_self i, hI.1⟩, hI.2⟩
  · -- Had an entry in front of this one been selected, this one would not be.
    obtain ⟨⟨hlevel | ⟨-, j, hj, hother⟩, hV⟩, htrue⟩ := hσ
    · exact ⟨hlevel.1.1, hvalue htrue, hV⟩
    · have hsame := congrArg Int32.toInt (Option.some.inj (hother.symm.trans (hvalue htrue)))
      rw [Int32.toInt_ofNat_of_lt (by omega), Int32.toInt_ofNat_of_lt hi] at hsame
      omega
  · refine hσ.1.imp (fun ⟨hlevel, hnone⟩ => ⟨hlevel, fun j hj => ?_⟩)
      fun ⟨hdeparts, j, hj, hother⟩ =>
        ⟨hdeparts.mono (Nat.min_le_right _ _), j, Nat.lt_succ_of_lt hj, hother⟩
    obtain hj | rfl := Nat.lt_succ_iff_lt_or_eq.1 hj
    · exact hnone j hj
    · intro hsame
      rw [allows_ifIn_exact hsame] at hb
      cases (Option.some.inj hb).symm.trans (decide_eq_true rfl)

/-- What is taken where no entry of a table is. -/
theorem triple_default (ha : Aims labels d height target l)
    (hc : IsArm code ns (branchCommands height target l) (some c)) (hpos : 0 < i)
    (hi : i ≤ 2 ^ 31) (V : Option Nbt) :
    Triple code (StackSafe below) n ns [c.unlessIn .a (.between 0 (Int32.ofNat (i - 1)))]
      (At V (Selected below labels height.toNat d t i))
      (At V (Departs below labels d (min t target))) := by
  -- The range of the guard is exactly the numbers that have an entry in the table.
  have hbetween : ∀ {v : Int32}, (Range.between 0 (Int32.ofNat (i - 1))).contains v = true ↔
      ∃ j < i, v = Int32.ofNat j := by
    intro v
    have hzero : (0 : Int32) = Int32.ofNat 0 := rfl
    rw [hzero, DispatchTree.contains_between_iff (by decide) (by omega)]
    constructor
    · intro hv
      refine ⟨v.toInt.toNat, by omega, Int32.toInt_inj.1 ?_⟩
      rw [Int32.toInt_ofNat_of_lt (by omega)]
      omega
    · rintro ⟨j, hj, rfl⟩
      rw [Int32.toInt_ofNat_of_lt (by omega)]
      omega
  refine triple_guarded (Modifier.isCondition_unlessIn _ _) (fun σ hσ => hσ.1.stacked)
    (triple_arm hc (fun σ hσ => hσ.1.1.stacked) ((triple_jump ha (I := fun σ => σ.conditions = V)
      (((ignores_conditions V).mono calm_among_unconditional).mono stack_among_calm) fun σ hσ hV =>
        ⟨(ha.departs hσ).mono (Nat.min_le_right _ _), hV⟩).weaken (fun σ hσ => ?_)
      fun _ hσ => hσ)) fun σ hσ hb => ⟨?_, hσ.2⟩
  · obtain ⟨⟨hlevel | ⟨-, hselected⟩, hV⟩, htrue⟩ := hσ
    · exact ⟨hlevel.1.1, hV⟩
    · obtain ⟨j, hj, hvalue⟩ := hselected
      rw [allows_unlessIn hvalue, hbetween.2 ⟨j, hj, rfl⟩] at htrue
      cases htrue
  · -- The number is one of the table's, so its entry has been taken.
    refine (hσ.1.resolve_left fun ⟨_, hnone⟩ => ?_).1.mono (Nat.min_le_left _ _)
    obtain ⟨x, hx, hfalse⟩ := Option.map_eq_some_iff.1 hb
    obtain ⟨v, hv, hin⟩ := Option.map_eq_some_iff.1 hx
    obtain rfl : x = true := by cases x <;> first | rfl | cases hfalse
    obtain ⟨j, hj, rfl⟩ := hbetween.1 hin
    exact hnone j hj hv

/-! ## Choices -/

section Choice

variable {v v' : Nbt} {slot : Nbt.Slot}

/-- An arm behind the condition that was put aside. -/
theorem triple_choiceArm {b : Bool} (hv : Nbt.Pushed v v')
    (hslot : v'.lookup [.index (-1)] = some slot) (hI : Ignores .beside I)
    (hstacked : ∀ σ, I σ → Stacked below 0 σ) (hg : g.IsCondition)
    (ha : ∀ σ : State, σ.regs .a = some slot.measure → σ.allows g = some b)
    (htaken : b = true → Triple code (StackSafe below) n ns [c] (At (some v') I) (At (some v') J))
    (hskipped : b = false → ∀ σ, I σ → J σ) :
    Triple code (StackSafe below) n ns [.load .a (Path.conditions.index (-1)), c.guarded g]
      (At (some v') I) (At (some v') J) := by
  refine .cons (J := fun σ => At (some v') I σ ∧ σ.regs .a = some slot.measure)
    (.moves (fun σ hσ => .of_staysIn (C := .nothing) (hstacked σ hσ.1) rfl)
      (moves_loadCondition hv fun slot' hslot' σ hσ => ?_)) ?_
  · cases hslot.symm.trans hslot'
    exact ⟨⟨hI.setReg _ hσ.1 rfl, hσ.2⟩, σ.regs_setReg .a .a slot.measure⟩
  · refine triple_guarded hg (fun σ hσ => hstacked σ hσ.1.1) ?_ fun σ hσ hb => ?_
    · cases b with
      | true => exact (htaken rfl).weaken (fun σ hσ => hσ.1.1) fun _ hσ => hσ
      | false =>
        rintro s ⟨σ, -, hσ, htrue⟩
        cases (ha σ hσ.2).symm.trans htrue
    · cases b with
      | true => cases (ha σ hσ.2).symm.trans hb
      | false => exact hσ.1.mono (hskipped rfl)

end Choice

variable {declares : String → IndexSpaces → Prop} {spaces : IndexSpaces} {ds : List Command}

/-- The choice between two arms.  One without commands is left as it is entered. -/
theorem triple_choose (hw : Settled code declares) (hns : declares ns spaces)
    (hone : IsArm code ns cs one) (hother : IsArm code ns ds other)
    (hcs : ∀ V, Triple code (StackSafe below) n ns cs (At V (Level below h)) (At V J))
    (hds : ∀ V, Triple code (StackSafe below) n ns ds (At V (Level below h)) (At V J))
    (hJ : Ignores .beside J) (hstacked : ∀ σ, J σ → Stacked below 0 σ) (V : Option Nbt) :
    Triple code (StackSafe below) n ns (choose one other) (At V (Level below (h + 1)))
      (At V J) := by
  have hlevel := ignores_level below h
  have harm : ∀ {cs c}, IsArm code ns cs (some c) →
      (∀ V, Triple code (StackSafe below) n ns cs (At V (Level below h)) (At V J)) →
      ∀ V, Triple code (StackSafe below) n ns [c] (At V (Level below h)) (At V J) :=
    fun hc hcs V => triple_arm hc (fun σ hσ => hσ.1.stacked) (hcs V)
  cases other with
  | none =>
    cases hother with
    | none hnil =>
      subst hnil
      have hfirst : Triple code (StackSafe below) n ns (one.toList.map (·.unlessIn .a (.exact 0)))
          (At V (Level below h)) (fun σ => At V J σ ∨ At V (Level below h) σ) := by
        cases one with
        | none => exact .nil fun _ hσ => .inr hσ
        | some c =>
          exact triple_guarded (Modifier.isCondition_unlessIn _ _) (fun σ hσ => hσ.1.stacked)
            ((harm hone hcs V).weaken (fun _ hσ => hσ.1) fun _ hσ => .inl hσ)
            fun σ hσ _ => .inr hσ
      have hboth := (triple_level (n := n) hw hns liftsAll_popA V).seq
        (hfirst.seq (.or (.nil fun _ hσ => hσ) (hds V)))
      rwa [List.append_nil] at hboth
  | some o =>
    -- The condition stays the same while the arms run, so exactly one of them does.
    have hchoose : choose one (some o) = [.appendFrom .conditions top] ++ ([.dropOperand] ++
        (one.toList.flatMap fun c =>
          [.load .a (Path.conditions.index (-1)), c.unlessIn .a (.exact 0)]) ++
        [.load .a (Path.conditions.index (-1)), o.ifIn .a (.exact 0)] ++
        [.remove (Path.conditions.index (-1))]) := by
      simp [choose]
    rw [hchoose]
    refine .seq (.moves (fun σ hσ => .of_isWithin hσ.1.1 rfl ?_) (moves_putAside fun σ v hσ =>
      (ignores_level below (h + 1)).setCell rfl hσ)) ?_
    · have hlast : (-1 : Int32).toInt = -1 := by decide
      exact List.forall_mem_cons.2 ⟨(fun h => by cases h), List.forall_mem_singleton.2
        fun _ => isOwnOperand hσ.1.1 (by omega) (by omega)⟩
    refine .of_exists fun v => .of_exists fun v' => .given fun hpushed => ?_
    obtain ⟨hV, hv⟩ := hpushed
    obtain ⟨slot, hslot⟩ := hv.there
    have hlevelStacked : ∀ σ, Level below h σ → Stacked below 0 σ := fun σ hσ => hσ.stacked
    have harms : Triple code (StackSafe below) n ns ((one.toList.flatMap fun c =>
          [.load .a (Path.conditions.index (-1)), c.unlessIn .a (.exact 0)]) ++
        [.load .a (Path.conditions.index (-1)), o.ifIn .a (.exact 0)])
        (At (some v') (Level below h)) (At (some v') J) := by
      have hunless := Modifier.isCondition_unlessIn .a (.exact 0)
      have hif := Modifier.isCondition_ifIn .a (.exact 0)
      by_cases hzero : slot.measure = 0
      · refine .seq (J := At (some v') (Level below h)) ?_ (triple_choiceArm (b := true) hv hslot
          hlevel hlevelStacked hif (fun σ ha => ?_) (fun _ => harm hother hds _) fun h => by cases h)
        · cases one with
          | none => exact .nil fun _ hσ => hσ
          | some c =>
            refine triple_choiceArm (b := false) hv hslot hlevel hlevelStacked hunless
              (fun σ ha => ?_) (fun h => by cases h) fun _ _ hσ => hσ
            rw [allows_unlessIn_exact ha, decide_eq_true hzero]
            rfl
        · rw [allows_ifIn_exact ha, decide_eq_true hzero]
      · refine .seq (J := At (some v') J) ?_ (triple_choiceArm (b := false) hv hslot hJ hstacked
          hif (fun σ ha => ?_) (fun h => by cases h) fun _ _ hσ => hσ)
        · cases one with
          | none =>
            cases hone with
            | none hnil =>
              subst hnil
              exact hcs _
          | some c =>
            refine triple_choiceArm (b := true) hv hslot hlevel hlevelStacked hunless
              (fun σ ha => ?_) (fun _ => harm hone hcs _) fun h => by cases h
            rw [allows_unlessIn_exact ha, decide_eq_false hzero]
            rfl
        · rw [allows_ifIn_exact ha, decide_eq_false hzero]
    rw [List.append_assoc [Command.dropOperand], hV]
    exact .seq (.seq (triple_level hw hns (.one .dropTop) _) harms)
      (.moves (fun σ hσ => .of_staysIn (C := .nothing) (hstacked σ hσ.1) rfl)
        (moves_dropCondition hv fun σ v hσ => hJ.setCell rfl hσ))

/-! ## Ends of constructs -/

section Ends

variable (hnest : d + 1 ≤ maxNesting) (hlen : labels.length = d + 1)

include hnest hlen

/-- The end of a block, where branches to its label arrive. -/
theorem triple_arrivals (V : Option Nbt) : Triple code (StackSafe below) n ns (arrivals (d + 1) t)
    (At V (Left below (labels ++ [l]) l.full (d + 1) t)) (At V (Left below labels l.full d t)) := by
  unfold arrivals
  split
  · refine .moves (fun σ hσ => .of_staysIn (C := .nothing) hσ.1.stacked rfl)
      (.guarded (Modifier.isCondition_ifIn _ _) (.setScore fun σ hσ => ⟨.inl ⟨?_, ?_⟩, hσ.1.2⟩)
        fun σ hσ hb => ⟨hσ.1.passed hlen hb, hσ.2⟩)
    · exact hσ.1.1.arrived hlen hnest hσ.2
    · exact State.regs_setReg _ _ _ _
  · rename_i hlt
    exact .nil fun σ hσ => hσ.mono fun _ h => .inl (h.settled (Nat.lt_of_not_le hlt))

/-- The turns of a loop. -/
theorem triple_turns {id : UInt32} (hid : IsFragment code ns id ([.setScore .brDepth noBranch] ++
      cs ++ [(Command.call (.fragment id)).ifIn .brDepth (.exact (Int32.ofNat (d + 1)))]))
    (hcs : Triple code (StackSafe below) n ns cs (At V (Level below l.full))
      (At V (Left below (labels ++ [l]) e (d + 1) t))) :
    Triple code (StackSafe below) n ns ([.setScore .brDepth noBranch] ++ cs ++
      [(Command.call (.fragment id)).ifIn .brDepth (.exact (Int32.ofNat (d + 1)))])
      (At V (Stacked below l.full)) (At V (Left below labels e d t)) := by
  -- Every turn but the first one is called by the one before it.
  induction n with
  | zero => exact fun _ _ => Along.zero
  | succ n ih =>
    refine .seq (.seq (.moves (fun σ hσ => .of_staysIn (C := .nothing) hσ.1 rfl) (.setScore
      fun σ hσ => ⟨⟨hσ.1, State.regs_setReg _ _ _ _⟩, hσ.2⟩)) hcs) ?_
    refine triple_guarded (Modifier.isCondition_ifIn _ _) (fun σ hσ => hσ.1.stacked)
      (.call (fun σ hσ => .call hσ.1.1.stacked _) fun f hf => ?_)
      fun σ hσ hb => ⟨hσ.1.passed hlen hb, hσ.2⟩
    cases hid.symm.trans hf
    exact (ih (hcs.of_le (Nat.le_succ n))).weaken
      (fun σ hσ => ⟨hσ.1.1.arrived hlen hnest hσ.2, hσ.1.2⟩) fun _ hσ => hσ

/-- A loop that branches back. -/
theorem triple_loop {id : UInt32} (hid : IsFragment code ns id ([.setScore .brDepth noBranch] ++
      cs ++ [(Command.call (.fragment id)).ifIn .brDepth (.exact (Int32.ofNat (d + 1)))]))
    (hcs : Triple code (StackSafe below) n ns cs (At V (Level below l.full))
      (At V (Left below (labels ++ [l]) e (d + 1) t))) :
    Triple code (StackSafe below) n ns [.call (.fragment id)] (At V (Level below l.full))
      (At V (Left below labels e d t)) := by
  cases n with
  | zero => exact fun _ _ => Along.zero
  | succ n =>
    refine .call (fun σ hσ => .call hσ.1.1 _) fun f hf => ?_
    cases hid.symm.trans hf
    exact (triple_turns hnest hlen hid (hcs.of_le (Nat.le_succ n))).weaken
      (fun _ hσ => ⟨hσ.1.1, hσ.2⟩) fun _ hσ => hσ

end Ends

/-- Behind a construct, things go on where no branch is under way. -/
theorem Left.behind (hσ : Left below labels e d t σ) (hd : d ≤ maxNesting)
    (hle : height.toNat ≤ e) : Behind below labels d (escape d t height) σ := by
  unfold escape
  split
  · exact ⟨Modifier.isCondition_ifIn _ _, hσ.mono hle (Nat.le_refl t),
      fun ha => (hσ.resumed hd ha).mono hle, fun ha => hσ.skipped ha⟩
  · rename_i hlt
    exact (hσ.settled (Nat.lt_of_not_le hlt)).mono hle

end Machine

end WasmPack
