/-
  WasmPack.Proofs.Execution.Discipline

  What the code of functions respects, by the rules that it is put together by.
  A discipline says what holds while no branch is under way, what may hold behind
  a piece of code that can be left by branches, and which commands are allowed
  where.  If the commands of instructions without branches respect it, so does
  every piece of code, whatever branches it takes.
-/
import WasmPack.Proofs.Execution.Rules

namespace WasmPack

/-- Everything but `#br_depth` and frames. -/
def Writes.aside : Writes := ⟨fun r => decide (r ≠ .brDepth), fun k => decide (k ≠ "frames")⟩

/-- The modifier is one that what follows an instruction is called behind.  Branch tables use one
    of them too, but with few entries only for the first one. -/
def Modifier.IsContinuation (few : Prop) (g : Modifier) : Prop :=
  g = .ifNoBranch ∨ few ∧ g = .ifIn .a (.exact 0)

namespace Machine

open Compile Wasm

variable {code : Code} {ok : String → Command → State → Prop} {few : Prop} {ns : String}
  {S : State → Prop} {P : Nat → Nat → State → Prop} {n d t u i : Nat} {scope : Scope} {V : Option Nbt}
  {cs : List Command} {c : Command} {g : Modifier}

theorem calm_among_aside : Writes.calm.Among .aside :=
  ⟨fun _ h => h, fun _ hk => decide_eq_true (of_decide_eq_true hk).1⟩

theorem calm_among_unconditional : Writes.calm.Among .unconditional :=
  ⟨fun _ _ => rfl, fun _ hk => decide_eq_true (of_decide_eq_true hk).2⟩

theorem stack_among_calm : Writes.stack.Among .calm :=
  ⟨fun _ (h : false = true) => (nomatch h), fun k hk => by rw [of_decide_eq_true hk]; decide⟩

/-! ## Disciplines -/

/-- A property of states in which no branch is under way, with one of states in which branches
    from a depth down to another may be. -/
structure Discipline (ok : String → Command → State → Prop) (few : Prop) (ns : String)
    (S : State → Prop) (P : Nat → Nat → State → Prop) : Prop where
  ignores : Ignores .aside S
  ignores_pending (d t : Nat) : Ignores .aside (P d t)
  pending {d t : Nat} {σ : State} : S σ → P d t σ
  mono {d t u : Nat} {σ : State} : u ≤ t → P d t σ → P d u σ
  /-- Where no branch can be under way, none is. -/
  settled {d t : Nat} {σ : State} : d < t → P d t σ → S σ
  resumed {d t : Nat} {σ : State} : P d t σ → σ.allows .ifNoBranch = some true → S σ
  /-- A branch that has arrived is no longer under way. -/
  cleared {d t : Nat} {σ : State} : P d t σ → S (σ.setReg .brDepth noBranch)
  /-- A branch that has not arrived goes further. -/
  passed {d t : Nat} {σ : State} : P (d + 1) t σ →
    σ.allows (.ifIn .brDepth (.exact (Int32.ofNat (d + 1)))) = some false → P d t σ
  set_off {d t u : Nat} {σ : State} : P d t σ → u ≤ d →
    P d (min u t) (σ.setReg .brDepth (Int32.ofNat u))
  unframed {d t : Nat} {c : Command} {σ : State} : c.isUnframed = true → P d t σ → ok ns c σ
  fragment {id : UInt32} {σ : State} : S σ → ok ns (.call (.fragment id)) σ
  /-- Behind a condition, what is allowed without it. -/
  guarded {d t : Nat} {c : Command} {g : Modifier} {s : Store} {σ : State} : g.IsCondition →
    (∀ {s : Store} {σ : State}, s.Models σ → S σ → ok ns c σ) → s.Models σ → P d t σ →
    (σ.allows g = some true → S σ) → ok ns (c.guarded g) σ
  fragmentIf {d t : Nat} {id : UInt32} {g : Modifier} {σ : State} : g.IsCondition → P d t σ →
    (g.IsContinuation few → σ.allows g = some true → S σ) →
    ok ns ((Command.call (.fragment id)).guarded g) σ

namespace Discipline

variable (D : Discipline ok few ns S P)

include D

theorem ignores_at (V : Option Nbt) : Ignores .calm (At V S) :=
  .and (D.ignores.mono calm_among_aside) ((ignores_conditions V).mono calm_among_unconditional)

theorem ignores_at_pending (V : Option Nbt) (d t : Nat) : Ignores .calm (At V (P d t)) :=
  .and ((D.ignores_pending d t).mono calm_among_aside)
    ((ignores_conditions V).mono calm_among_unconditional)

theorem set_off_settled {σ : State} (hσ : S σ) (hle : u ≤ d) :
    P d u (σ.setReg .brDepth (Int32.ofNat u)) := by
  have hset : P d (min u u) (σ.setReg .brDepth (Int32.ofNat u)) := D.set_off (D.pending hσ) hle
  rwa [Nat.min_self] at hset

theorem unframed_settled {σ : State} (hc : c.isUnframed = true) (hσ : S σ) : ok ns c σ :=
  D.unframed hc (D.pending hσ : P 0 0 σ)

/-! ## Branches -/

/-- A branch that is set off. -/
theorem jump (h : IsJump u cs) (hle : u ≤ d) : Triple code ok n ns cs (At V S) (At V (P d u)) :=
  IsJump.triple ((D.ignores_at V).mono stack_among_calm) (fun _ hc _ hσ => D.unframed_settled hc hσ.1) h
    fun _ hσ => ⟨D.set_off_settled hσ.1 hle, hσ.2⟩

/-- A branch under a condition. -/
theorem jumpCall_guarded {I J : State → Prop} (h : IsJumpCall code ns u c) (hg : g.IsCondition)
    (hplain : ∀ v, ((Command.setScore .brDepth v).guarded g).isUnframed = true)
    (hI : Ignores .stack I) (hP : ∀ σ, I σ → P d t σ)
    (hnow : ∀ σ, I σ → g.IsContinuation few → σ.allows g = some true → S σ)
    (hJ : ∀ σ, I σ → σ.allows g = some true → J (σ.setReg .brDepth (Int32.ofNat u)))
    (hblocked : ∀ σ, I σ → σ.allows g = some false → J σ) :
    Triple code ok n ns [c.guarded g] I J := by
  refine IsJumpCall.triple_guarded hI (fun _ hc σ hσ => D.unframed hc (hP σ hσ)) h hg
    (fun σ hσ => ?_) hJ hblocked
  cases h with
  | direct => exact D.unframed (hplain _) (hP σ hσ)
  | fragment => exact D.fragmentIf hg (hP σ hσ) (hnow σ hσ)

/-- The first branch of a table. -/
theorem first_entry (h : IsJumpCall code ns u c) (hle : u ≤ d) (hg : g.IsCondition)
    (hplain : ∀ v, ((Command.setScore .brDepth v).guarded g).isUnframed = true) :
    Triple code ok n ns [c.guarded g] (At V S) (At V (P d u)) :=
  D.jumpCall_guarded h hg hplain ((D.ignores_at V).mono stack_among_calm)
    (fun _ hσ => (D.pending hσ.1 : P d u _)) (fun _ hσ _ _ => hσ.1)
    (fun _ hσ _ => ⟨D.set_off_settled hσ.1 hle, hσ.2⟩)
    fun _ hσ _ => hσ.mono fun _ => D.pending

/-- A branch that is taken unless the condition is zero. -/
theorem jumpIf (h : IsJumpCall code ns u c) (hle : u ≤ d) :
    Triple code ok n ns [c.unlessIn .a (.exact 0)] (At V S)
      (fun σ => At V (P d u) σ ∧ (σ.allows (.ifIn .a (.exact 0)) = some true → S σ)) := by
  refine D.jumpCall_guarded h (Modifier.isCondition_unlessIn _ _) (fun _ => rfl)
    ((D.ignores_at V).mono stack_among_calm) (fun _ hσ => (D.pending hσ.1 : P d u _))
    (fun _ hσ _ _ => hσ.1) (fun σ hσ ha => ⟨⟨D.set_off_settled hσ.1 hle, hσ.2⟩, fun hz => ?_⟩)
    fun σ hσ _ => ⟨hσ.mono fun _ => D.pending, fun _ => hσ.1⟩
  have hif : σ.allows (.ifIn .a (.exact 0)) = some true := hz
  have hunless : (σ.allows (.ifIn .a (.exact 0))).map (!·) = some true := ha
  rw [hif] at hunless
  cases hunless

/-- A branch of a table where others may be under way. -/
theorem later_entry (h : IsJumpCall code ns u c) (hle : u ≤ d) (hg : g.IsCondition)
    (hplain : ∀ v, ((Command.setScore .brDepth v).guarded g).isUnframed = true)
    (hskip : ¬g.IsContinuation few) :
    Triple code ok n ns [c.guarded g] (At V (P d t)) (At V (P d (min u t))) :=
  D.jumpCall_guarded h hg hplain ((D.ignores_at_pending V d t).mono stack_among_calm) (fun _ hσ => hσ.1)
    (fun _ _ hc => absurd hc hskip) (fun _ hσ _ => ⟨D.set_off hσ.1 hle, hσ.2⟩)
    fun _ hσ _ => hσ.mono fun _ => D.mono (Nat.min_le_right _ _)

/-- The branches of a table behind the first one. -/
theorem table_rest (h : IsTable code ns few d i u cs) (hi : 0 < i) :
    Triple code ok n ns cs (At V (P d t)) (At V (P d (min u t))) := by
  induction h generalizing t with
  | only => exact absurd hi (Nat.lt_irrefl 0)
  | default hc hle =>
    refine D.later_entry hc hle (Modifier.isCondition_unlessIn _ _) (fun _ => rfl) ?_
    rintro (h | ⟨-, h⟩) <;> cases h
  | @entry i target u c rest hc hle hfew hrest ih =>
    refine .cons (D.later_entry hc hle (Modifier.isCondition_ifIn _ _) (fun _ => rfl) ?_)
      ((ih (Nat.succ_pos i)).weaken (fun _ hσ => hσ) fun σ hσ => ?_)
    · rintro (h | ⟨hf, h⟩)
      · cases h
      · have hzero : Int32.ofNat i = 0 := by
          injection h with h
          injection h with _ h
          injection h with h _
          exact Option.some.inj h
        have hbits : BitVec.ofNat 32 i = 0#32 := congrArg Int32.toBitVec hzero
        have hmod := congrArg BitVec.toNat hbits
        rw [BitVec.toNat_ofNat, Nat.mod_eq_of_lt (hfew hf)] at hmod
        exact absurd hmod (Nat.ne_of_gt hi)
    · rwa [Nat.min_left_comm, ← Nat.min_assoc] at hσ

/-- The branches of a table. -/
theorem table (h : IsTable code ns few d 0 t cs) :
    Triple code ok n ns cs (At V S) (At V (P d t)) := by
  cases h with
  | only hc hle =>
    refine IsJumpCall.triple ((D.ignores_at V).mono stack_among_calm)
      (fun _ hc _ hσ => D.unframed_settled hc hσ.1) hc
      (fun σ hσ => ?_) fun σ hσ => ⟨D.set_off_settled hσ.1 hle, hσ.2⟩
    cases hc with
    | direct => exact D.unframed_settled rfl hσ.1
    | fragment => exact D.fragment hσ.1
  | default hc hle =>
    exact D.first_entry hc hle (Modifier.isCondition_unlessIn _ _) fun _ => rfl
  | entry hc hle hfew hrest =>
    rw [Nat.min_comm]
    exact .cons (D.first_entry hc hle (Modifier.isCondition_ifIn _ _) fun _ => rfl)
      (D.table_rest hrest Nat.one_pos)

/-! ## Arms -/

/-- Commands that have to do with control flow neither by what they write nor by what they call. -/
theorem keeps (hcs : All (·.staysIn .calm .nothing) cs) :
    Triple code ok n ns cs (At V S) (At V S) :=
  .keeps (D.ignores_at V) hcs fun c hc _ hσ => D.unframed_settled (Command.isUnframed_of_isCalm
    (Command.staysIn_mono ⟨fun _ h => h, fun _ h => h⟩ ⟨fun _ (h : false = true) => (nomatch h),
      fun _ (h : false = true) => (nomatch h)⟩ (hcs c hc))) hσ.1

/-- An arm as one command. -/
theorem arm (hc : IsArm code ns cs (some c))
    (hcs : ∀ m ≤ n, ∀ V, Triple code ok m ns cs (At V S) (At V (P d t))) (V : Option Nbt) :
    Triple code ok n ns [c] (At V S) (At V (P d t)) := by
  cases hc with
  | one hone => exact hone ▸ hcs n (Nat.le_refl n) V
  | fragment hid =>
    cases n with
    | zero => exact fun _ _ => Along.zero
    | succ n =>
      refine .call (fun _ hσ => D.fragment hσ.1) fun f hf => ?_
      cases hid.symm.trans hf
      exact hcs n (Nat.le_succ n) V

/-- An arm is allowed under a condition that holds only while no branch is under way. -/
theorem arm_allowed {e : Nat} {s : Store} {σ : State} (hg : g.IsCondition)
    (harm : ∀ V, Triple code ok (n + 1) ns [c] (At V S) (At V (P d t))) (hs : s.Models σ)
    (hP : P e u σ) (hS : σ.allows g = some true → S σ) : ok ns (c.guarded g) σ :=
  D.guarded hg (fun {_ τ} hs h => (harm τ.conditions).now hs ⟨h, rfl⟩) hs hP hS

/-- An arm under a condition. -/
theorem arm_guarded (harm : ∀ V, Triple code ok n ns [c] (At V S) (At V (P d t)))
    (hg : g.IsCondition) : Triple code ok n ns [c.guarded g] (At V S) (At V (P d t)) := by
  cases n with
  | zero => exact fun _ _ => Along.zero
  | succ n =>
    exact .guarded hg
      (fun _ _ hs hσ => D.arm_allowed hg harm hs (D.pending hσ.1 : P d t _) fun _ => hσ.1)
      ((harm V).weaken (fun σ hσ => hσ.1) fun σ hσ => hσ)
      fun σ hσ _ => hσ.mono fun _ => D.pending

section Loaded

variable {v v' : Nbt} {slot : Nbt.Slot} (hv : Nbt.Pushed v v')
  (hslot : v'.lookup [.index (-1)] = some slot)

include hv hslot

/-- The condition of an `if` is loaded. -/
theorem load {I : State → Prop} (hI : Ignores .aside I) (hP : ∀ σ, I σ → P d t σ) :
    Triple code ok n ns [.load .a (Path.conditions.index (-1))] (At (some v') I)
      (fun σ => At (some v') I σ ∧ σ.regs .a = some slot.measure) := by
  refine .moves (fun σ hσ => D.unframed rfl (hP σ hσ.1)) (moves_loadCondition hv ?_)
  intro slot' hslot' σ hσ
  cases hslot.symm.trans hslot'
  exact ⟨⟨hI.setReg _ hσ.1 rfl, hσ.2⟩, σ.regs_setReg .a .a slot.measure⟩

/-- The arm whose condition holds. -/
theorem arm_taken (harm : ∀ V, Triple code ok n ns [c] (At V S) (At V (P d t)))
    (hg : g.IsCondition) :
    Triple code ok n ns [.load .a (Path.conditions.index (-1)), c.guarded g]
      (At (some v') S) (At (some v') (P d t)) :=
  .cons (D.load hv hslot D.ignores fun _ hσ => (D.pending hσ : P d t _))
    ((D.arm_guarded harm hg).weaken (fun _ hσ => hσ.1) fun _ hσ => hσ)

/-- The arm whose condition does not hold. -/
theorem arm_skipped {I : State → Prop} {e : Nat} (hI : Ignores .aside I) (hP : ∀ σ, I σ → P e u σ)
    (harm : ∀ V, Triple code ok n ns [c] (At V S) (At V (P d t))) (hg : g.IsCondition)
    (ha : ∀ σ : State, σ.regs .a = some slot.measure → σ.allows g = some false) :
    Triple code ok n ns [.load .a (Path.conditions.index (-1)), c.guarded g]
      (At (some v') I) (At (some v') I) := by
  refine .cons (D.load hv hslot hI hP) ?_
  cases n with
  | zero => exact fun _ _ => Along.zero
  | succ n =>
    refine .guarded hg (fun s σ hs hσ => D.arm_allowed hg harm hs (hP σ hσ.1.1) fun htrue => ?_)
      (fun s hs => ?_) fun _ hσ _ => hσ.1
    · cases (ha σ hσ.2).symm.trans htrue
    · obtain ⟨σ, -, hσ, htrue⟩ := hs
      cases (ha σ hσ.2).symm.trans htrue

/-- The first arm runs unless the condition is zero. -/
theorem first_arm {one : Option Command}
    (hone : ∀ c, one = some c → ∀ V, Triple code ok n ns [c] (At V S) (At V (P d t))) :
    Triple code ok n ns
      (one.toList.flatMap fun c =>
        [.load .a (Path.conditions.index (-1)), c.unlessIn .a (.exact 0)])
      (At (some v') S) (At (some v') (if slot.measure = 0 then S else P d t)) := by
  cases one with
  | none =>
    refine .nil fun σ hσ => hσ.mono fun _ hS => ?_
    split
    · exact hS
    · exact D.pending hS
  | some c =>
    have hg := Modifier.isCondition_unlessIn .a (.exact 0)
    split
    · rename_i hzero
      refine D.arm_skipped hv hslot D.ignores (fun _ hσ => (D.pending hσ : P d t _))
        (hone c rfl) hg fun σ ha => ?_
      rw [allows_unlessIn_exact ha, decide_eq_true hzero]
      rfl
    · exact D.arm_taken hv hslot (hone c rfl) hg

/-- The second arm runs if the condition is zero, and then the first one has not. -/
theorem second_arm {other : Command}
    (hother : ∀ V, Triple code ok n ns [other] (At V S) (At V (P d u))) :
    Triple code ok n ns [.load .a (Path.conditions.index (-1)), other.ifIn .a (.exact 0)]
      (At (some v') (if slot.measure = 0 then S else P d t)) (At (some v') (P d (min t u))) := by
  have hg := Modifier.isCondition_ifIn .a (.exact 0)
  split
  · exact (D.arm_taken hv hslot hother hg).weaken (fun _ hσ => hσ)
      fun _ hσ => hσ.mono fun _ => D.mono (Nat.min_le_right _ _)
  · rename_i hne
    refine (D.arm_skipped hv hslot (D.ignores_pending d t) (fun _ hσ => hσ) hother hg
      fun σ ha => ?_).weaken (fun _ hσ => hσ)
        fun _ hσ => hσ.mono fun _ => D.mono (Nat.min_le_left _ _)
    rw [allows_ifIn_exact ha, decide_eq_false hne]

end Loaded

/-- The choice between two arms. -/
theorem choice {one other : Option Command}
    (hone : ∀ c, one = some c → ∀ V, Triple code ok n ns [c] (At V S) (At V (P d t)))
    (hother : ∀ c, other = some c → ∀ V, Triple code ok n ns [c] (At V S) (At V (P d u))) :
    Triple code ok n ns (choose one other) (At V S) (At V (P d (min t u))) := by
  have hleft : ∀ {V}, ∀ σ, At V (P d t) σ → At V (P d (min t u)) σ :=
    fun σ hσ => hσ.mono fun _ => D.mono (Nat.min_le_left _ _)
  have hright : ∀ {V}, ∀ σ, At V (P d u) σ → At V (P d (min t u)) σ :=
    fun σ hσ => hσ.mono fun _ => D.mono (Nat.min_le_right _ _)
  have hpopA : All (·.staysIn .calm .nothing) popA := by decide
  cases other with
  | none =>
    refine .seq (D.keeps hpopA) ?_
    cases one with
    | none => exact .nil fun σ hσ => hσ.mono fun _ => D.pending
    | some c =>
      exact (D.arm_guarded (hone c rfl) (Modifier.isCondition_unlessIn _ _)).weaken
        (fun _ hσ => hσ) hleft
  | some o =>
    -- The condition stays the same while the arms run, so exactly one of them does.
    have hchoose : choose one (some o) = [.appendFrom .conditions top] ++ ([.dropOperand] ++
        (one.toList.flatMap fun c =>
          [.load .a (Path.conditions.index (-1)), c.unlessIn .a (.exact 0)]) ++
        [.load .a (Path.conditions.index (-1)), o.ifIn .a (.exact 0)] ++
        [.remove (Path.conditions.index (-1))]) := by
      simp [choose]
    rw [hchoose]
    refine .seq (.moves (fun σ hσ => D.unframed_settled rfl hσ.1) (moves_putAside fun σ v hσ =>
      D.ignores.setCell rfl hσ)) ?_
    refine .of_exists fun v => .of_exists fun v' => .given fun ⟨hV, hv⟩ => ?_
    obtain ⟨slot, hslot⟩ := hv.there
    refine .seq (.seq (.seq (D.keeps (by decide)) (D.first_arm hv hslot hone))
      (D.second_arm hv hslot (hother o rfl))) ?_
    rw [hV]
    exact .moves (fun σ hσ => D.unframed rfl hσ.1)
      (moves_dropCondition hv fun σ v hσ => (D.ignores_pending d _).setCell rfl hσ)

/-! ## What follows, and what repeats -/

/-- What follows behind a guard that lets nothing run while a branch is under way. -/
theorem tail {next : List Command} {I : State → Prop} (h : IsTail code ns g next cs)
    (hg : g.IsCondition) (hP : ∀ σ, I σ → At V (P d t) σ)
    (hS : ∀ σ, I σ → σ.allows g = some true → S σ)
    (hnext : ∀ m ≤ n, Triple code ok m ns next (At V S) (At V (P d u))) :
    Triple code ok n ns cs I (At V (P d (min t u))) := by
  have hleft : ∀ σ, I σ → At V (P d (min t u)) σ := fun σ hσ =>
    (hP σ hσ).mono fun _ => D.mono (Nat.min_le_left _ _)
  cases h with
  | none => exact .nil hleft
  | fragment hid =>
    cases n with
    | zero => exact fun _ _ => Along.zero
    | succ n =>
      refine .callIf hg (fun σ hσ => D.fragmentIf hg (hP σ hσ).1 fun _ => hS σ hσ) (fun f hf => ?_)
        fun σ hσ _ => hleft σ hσ
      cases hid.symm.trans hf
      exact (hnext n (Nat.le_succ n)).weaken
        (fun σ hσ => ⟨hS σ hσ.1 hσ.2, (hP σ hσ.1).2⟩)
        fun _ hσ => hσ.mono fun _ => D.mono (Nat.min_le_right _ _)

/-- The end of a construct, where branches to its label arrive. -/
theorem arrivals :
    Triple code ok n ns (arrivals (d + 1) t) (At V (P (d + 1) t)) (At V (P d t)) := by
  unfold Compile.arrivals
  split
  · refine .moves (fun σ hσ => D.unframed rfl hσ.1) (.guarded (Modifier.isCondition_ifIn _ _)
      (.setScore fun σ hσ => ⟨D.pending (D.cleared hσ.1.1), hσ.1.2⟩) fun σ hσ hb => ?_)
    exact ⟨D.passed hσ.1 hb, hσ.2⟩
  · rename_i hlt
    exact .nil fun σ hσ => hσ.mono fun _ h => D.pending (D.settled (Nat.lt_of_not_le hlt) h)

/-- The turns of a loop. -/
theorem turns {id : UInt32} (hnest : d + 1 ≤ maxNesting)
    (hid : IsFragment code ns id ([.setScore .brDepth noBranch] ++ cs ++
      [(Command.call (.fragment id)).ifIn .brDepth (.exact (Int32.ofNat (d + 1)))]))
    (hcs : ∀ m ≤ n, Triple code ok m ns cs (At V S) (At V (P (d + 1) t))) :
    Triple code ok n ns ([.setScore .brDepth noBranch] ++ cs ++
      [(Command.call (.fragment id)).ifIn .brDepth (.exact (Int32.ofNat (d + 1)))])
      (At V (P (d + 1) t)) (At V (P d t)) := by
  have hg := Modifier.isCondition_ifIn .brDepth (.exact (Int32.ofNat (d + 1)))
  have hskip : ¬(Modifier.ifIn .brDepth (.exact (Int32.ofNat (d + 1)))).IsContinuation few := by
    rintro (h | ⟨-, h⟩)
    · injection h with h
      injection h with _ h
      injection h with h _
      exact ofNat_ne_noBranch hnest (Option.some.inj h)
    · cases h
  -- Every turn but the first one is called by the one before it.
  induction n with
  | zero => exact fun _ _ => Along.zero
  | succ n ih =>
    refine .seq (.seq (.moves (fun σ hσ => D.unframed rfl hσ.1) (.setScore fun σ hσ =>
      ⟨D.cleared hσ.1, hσ.2⟩)) (hcs (n + 1) (Nat.le_refl _))) ?_
    refine .callIf hg (fun σ hσ => D.fragmentIf hg hσ.1 fun h => absurd h hskip) (fun f hf => ?_)
      fun σ hσ hb => ⟨D.passed hσ.1 hb, hσ.2⟩
    cases hid.symm.trans hf
    exact (ih fun m hm => hcs m (Nat.le_succ_of_le hm)).weaken (fun _ hσ => hσ.1) fun _ hσ => hσ

/-- A loop that branches back. -/
theorem loop {id : UInt32} (hnest : d + 1 ≤ maxNesting)
    (hid : IsFragment code ns id ([.setScore .brDepth noBranch] ++ cs ++
      [(Command.call (.fragment id)).ifIn .brDepth (.exact (Int32.ofNat (d + 1)))]))
    (hcs : ∀ m ≤ n, Triple code ok m ns cs (At V S) (At V (P (d + 1) t))) :
    Triple code ok n ns [.call (.fragment id)] (At V S) (At V (P d t)) := by
  cases n with
  | zero => exact fun _ _ => Along.zero
  | succ n =>
    refine .call (fun _ hσ => D.fragment hσ.1) fun f hf => ?_
    cases hid.symm.trans hf
    exact (D.turns hnest hid fun m hm => hcs m (Nat.le_succ_of_le hm)).weaken
      (fun _ hσ => hσ.mono fun _ => D.pending) fun _ hσ => hσ

/-! ## Code -/

/-- **Code respects the discipline.**  If the commands of instructions without branches do, then
    every piece of code does, and is left as its depth and its targets say. -/
theorem emitted {piece : Piece} (h : Emitted code ns scope few piece d t cs)
    (hstraight : ∀ m ≤ n, ∀ cs V, IsStraight scope cs →
      Triple code ok m ns cs (At V S) (At V S)) (V : Option Nbt) :
    Triple code ok n ns cs (At V S) (At V (P d t)) := by
  induction h generalizing n V with
  | nil => exact .nil fun σ hσ => hσ.mono fun _ => D.pending
  | straight hcs hrest ih => exact .seq (hstraight n (Nat.le_refl n) _ V hcs) (ih hstraight V)
  | jump hcs hle => exact D.jump hcs hle
  | table hcs => exact .seq (D.keeps (by decide)) (D.table hcs)
  | jumpIf hc hle hnext htail ih =>
    exact .seq (.seq (D.keeps (by decide)) (D.jumpIf hc hle)) (D.tail htail
      (Modifier.isCondition_ifIn _ _) (fun _ hσ => hσ.1) (fun _ hσ => hσ.2) fun m hm =>
        ih (fun k hk => hstraight k (Nat.le_trans hk hm)) V)
  | next hcs hlt hrest ih ihrest =>
    refine .seq (ih hstraight V) ((ihrest hstraight V).weaken (fun σ hσ => ?_) fun _ hσ => hσ)
    exact hσ.mono fun _ => D.settled hlt
  | guarded hcs hle hnext htail ih ihnext =>
    exact .seq (ih hstraight V) (D.tail htail (Modifier.isCondition_ifIn _ _) (fun _ hσ => hσ)
      (fun _ hσ => D.resumed hσ.1) fun m hm =>
        ihnext (fun k hk => hstraight k (Nat.le_trans hk hm)) V)
  | block hnest hcs ih => exact .seq (ih hstraight V) D.arrivals
  | loop hnest hle hcs hid ih =>
    exact D.loop hnest hid fun m hm => ih (fun k hk => hstraight k (Nat.le_trans hk hm)) V
  | turn hnest hlt hcs ih =>
    exact (ih hstraight V).weaken (fun _ hσ => hσ) fun σ hσ => hσ.mono fun _ h =>
      D.pending (D.settled hlt h)
  | choice hnest hcs hcs' hone hother ih ih' =>
    refine .seq (D.choice (fun c hc V => ?_) fun c hc V => ?_) D.arrivals
    · subst hc
      exact D.arm hone (fun m hm V => ih (fun k hk => hstraight k (Nat.le_trans hk hm)) V) V
    · subst hc
      exact D.arm hother (fun m hm V => ih' (fun k hk => hstraight k (Nat.le_trans hk hm)) V) V

end Discipline

end Machine

end WasmPack
