/-
  WasmPack.Proofs.Execution.Branches

  Where `#br_depth` stands while compiled code runs.  Calls of functions and what
  follows behind an instruction begin while no branch is under way, and a piece
  of code is left with no branch under way or with one to a depth that code
  generation has reported.
-/
import WasmPack.Proofs.Execution.Discipline
import WasmPack.Proofs.Execution.Linked

namespace WasmPack

/-- Everything but `#br_depth` and the conditions under way. -/
def Writes.steady : Writes := ⟨fun r => decide (r ≠ .brDepth), fun k => decide (k ≠ "conditions")⟩

namespace Machine

open Compile Wasm

variable {code : Code} {modules : String → Prop} {few : Prop} {ns : String} {n depth : Nat}
  {scope : Scope}
  {V : Option Nbt} {cs : List Command} {c : Command} {σ : State} {s : Store} {f : Function}

/-! ## Branches under way -/

/-- No branch is under way. -/
def Idle (σ : State) : Prop := σ.regs .brDepth = some noBranch

/-- No branch is under way, or one to a depth from `t` to `d`. -/
def Under (d t : Nat) (σ : State) : Prop :=
  Idle σ ∨ ∃ k, t ≤ k ∧ k ≤ d ∧ σ.regs .brDepth = some (Int32.ofNat k)

/-- Where the command begins a call of a function, or calls a fragment behind no conditions but
    those of what follows an instruction, no branch is under way. -/
structure Begins (few : Prop) (c : Command) (σ : State) : Prop where
  sequence : (chain c).2 = some (.append .frames .emptyList) →
    (∀ g ∈ (chain c).1, σ.allows g = some true) → Idle σ
  fragment : ∀ id, (chain c).2 = some (.call (.fragment id)) →
    (∀ g ∈ (chain c).1, g.IsContinuation few ∧ σ.allows g = some true) → Idle σ

/-- The same for commands of any module. -/
abbrev BeginsIdle (few : Prop) : String → Command → State → Prop := fun _ => Begins few

theorem Begins.of_idle (h : Idle σ) : Begins few c σ := ⟨fun _ _ => h, fun _ _ _ => h⟩

theorem Begins.of_isUnframed (hc : c.isUnframed = true) : Begins few c σ := by
  refine ⟨fun h => ?_, fun id h => ?_⟩
  · have hwithin := (chain_within (Command.isWithin_of_staysIn hc)).2 _ h
    cases hwithin
  · have hcalls := chain_callsWithin (Command.callsWithin_of_staysIn hc) _ h
    cases hcalls

/-- A command that neither opens a frame nor calls a fragment. -/
theorem Begins.of_other (hc : (chain c).2 ≠ some (.append .frames .emptyList))
    (hfragment : ∀ id, (chain c).2 ≠ some (.call (.fragment id))) : Begins few c σ :=
  ⟨fun h => absurd h hc, fun id h => absurd h (hfragment id)⟩

theorem ignores_regs {W : Writes} (hW : W.register .brDepth = false) (p : Option Int32 → Prop) :
    Ignores W (fun σ => p (σ.regs .brDepth)) := by
  refine ⟨fun {σ r} n hσ hr => ?_, fun {σ τ id key} hσ _ h => ?_⟩
  · have hne : Register.brDepth ≠ r := by
      rintro rfl
      exact Bool.false_ne_true (hW.symm.trans hr)
    show p (if Register.brDepth = r then some n else σ.regs .brDepth)
    rwa [if_neg hne]
  · rwa [h.1]

/-- Code keeps branches under way between the depths of its own targets. -/
theorem discipline_branches (few : Prop) (ns : String) :
    Discipline (BeginsIdle few) few ns Idle Under where
  ignores := ignores_regs rfl (· = some noBranch)
  ignores_pending d t := ignores_regs rfl fun r =>
    r = some noBranch ∨ ∃ k, t ≤ k ∧ k ≤ d ∧ r = some (Int32.ofNat k)
  pending := .inl
  mono hle hσ := hσ.imp_right fun ⟨k, hk⟩ => ⟨k, Nat.le_trans hle hk.1, hk.2⟩
  settled hlt hσ := hσ.elim id fun ⟨k, htk, hkd, _⟩ =>
    absurd (Nat.le_trans htk hkd) (Nat.not_le_of_lt hlt)
  -- A test for no branch passes only where none is pending.
  resumed hσ ha := by
    obtain hσ | ⟨k, -, -, hk⟩ := hσ
    · exact hσ
    · rw [Modifier.ifNoBranch, allows_ifIn_exact hk, Option.some.injEq, decide_eq_true_eq] at ha
      rw [Idle, hk, ha]
  cleared _ := State.regs_setReg _ _ _ _
  -- A branch that this test does not catch goes further out.
  passed hσ ha := by
    obtain hσ | ⟨k, htk, hkd, hk⟩ := hσ
    · exact .inl hσ
    · rw [allows_ifIn_exact hk, Option.some.injEq, decide_eq_false_iff_not] at ha
      have hne : k ≠ _ := fun h => ha (congrArg Int32.ofNat h)
      exact .inr ⟨k, htk, by omega, hk⟩
  set_off {d t u σ} _ hle := .inr ⟨u, Nat.min_le_left u t, hle, State.regs_setReg _ _ _ _⟩
  unframed hc _ := .of_isUnframed hc
  fragment := .of_idle
  guarded {d t c g s σ} _ _ _ _ hg := by
    have hchain := chain_guarded c g
    refine ⟨fun _ ha => hg (ha g ?_), fun _ _ ha => hg (ha g ?_).2⟩
    all_goals
      rw [hchain]
      exact List.mem_cons_self
  fragmentIf {d t id g σ} _ _ hg := by
    refine ⟨fun h => (nomatch h), fun _ _ ha => ?_⟩
    obtain ⟨hc, ha⟩ := ha g List.mem_cons_self
    exact hg hc ha

/-! ## Functions -/

theorem ignores_idle (V : Option Nbt) : Ignores .steady (At V Idle) :=
  (ignores_regs rfl (· = some noBranch)).and
    ((ignores_conditions V).mono ⟨fun _ _ => rfl, fun _ h => h⟩)

theorem calm_among_steady : Writes.calm.Among .steady :=
  ⟨fun _ h => h, fun _ hk => decide_eq_true (of_decide_eq_true hk).2⟩

/-- Functions that begin while no branch is under way leave the conditions as they are. -/
def FunctionsKeep (code : Code) (modules : String → Prop) (few : Prop) (n : Nat) : Prop :=
  ∀ f, Callable code modules few f → ∀ V, Triple code (BeginsIdle few) n f.ns
    f.commands (At V Idle) (fun σ => σ.conditions = V)

/-- Behind a call of a function no branch is under way. -/
theorem triple_callSequence (hw : World code modules few) (hns : modules ns)
    (hcallee : ∀ m < n, FunctionsKeep code modules few m) (index : UInt32) (params : Nat)
    (V : Option Nbt) : Triple code (BeginsIdle few) n ns
      (callSequence (.func index) params) (At V Idle) (At V Idle) := by
  have hframe : All (·.staysIn .steady .nothing) ([.append .frames .emptyList] ++
      (List.range params).map (moveArgument params) ++ List.replicate params .dropOperand) := by
    refine all_append.2 ⟨all_append.2 ⟨by decide, all_map fun j _ => rfl⟩, all_replicate (by decide)⟩
  refine .seq (.keeps (ignores_idle V) hframe fun _ _ _ hσ => .of_idle hσ.1) ?_
  have hconditions := (ignores_conditions V).mono (W := .steady) ⟨fun _ _ => rfl, fun _ h => h⟩
  refine .cons (J := fun σ => σ.conditions = V) ?_ (.cons (J := fun σ => σ.conditions = V) ?_ ?_)
  · cases n with
    | zero => exact fun _ _ => Along.zero
    | succ n =>
      exact .call (fun _ hσ => .of_idle hσ.1) fun f hf =>
        hcallee n (Nat.lt_succ_self n) f (hw.function hns index f hf) V
  · exact .keeps hconditions (by decide) fun c hc _ _ => by
      rw [List.mem_singleton.1 hc]
      exact .of_other (fun h => nomatch h) fun _ h => nomatch h
  · exact .moves (fun σ _ => .of_isUnframed rfl) (.setScore fun σ hσ =>
      ⟨State.regs_setReg _ _ _ _, hσ⟩)

theorem triple_exported (hw : World code modules few)
    (hcallee : ∀ m < n, FunctionsKeep code modules few m) (hf : PassesOn modules f)
    (V : Option Nbt) : Triple code (BeginsIdle few) n f.ns f.commands (At V Idle) (At V Idle) := by
  cases hf with
  | mk hns index params => exact triple_callSequence hw hns hcallee index params V

/-- The commands of an instruction without branches begin and end while no branch is under
    way. -/
theorem triple_straight (hw : World code modules few) (hns : modules ns)
    (hcallee : ∀ m < n, FunctionsKeep code modules few m) (hcs : IsStraight scope cs)
    (V : Option Nbt) :
    Triple code (BeginsIdle few) n ns cs (At V Idle) (At V Idle) := by
  cases hcs with
  | @call func entry => exact triple_callSequence hw hns hcallee func _ V
  | steps h =>
    refine .all fun c hc => ?_
    cases h c hc with
    | basic hbasic =>
      exact hw.triple_beside ((ignores_idle V).mono calm_among_steady)
        (fun _ _ _ _ hσ => .of_idle hσ.1)
        (fun m hm f hf => triple_exported hw
          (fun k hk => hcallee k (Nat.lt_of_lt_of_le hk hm)) hf V)
        (.calm (.inl hns) (all_cons.2 ⟨Command.isCalm_of_isBasic hbasic, all_nil⟩))
    | readLocal =>
      exact .keeps (ignores_idle V) (all_cons.2 ⟨rfl, all_nil⟩) fun _ _ _ hσ => .of_idle hσ.1
    | writeLocal =>
      exact .keeps (ignores_idle V) (all_cons.2 ⟨rfl, all_nil⟩) fun _ _ _ hσ => .of_idle hσ.1

/-- Every function leaves the conditions as they are, for any number of commands. -/
theorem functionsKeep (hw : World code modules few) (n : Nat) :
    FunctionsKeep code modules few n := by
  induction n using Nat.strongRecOn with
  | _ n ih =>
    rintro _ (⟨hns, hfew, hlower, hr⟩ | ⟨hns, source, params, hcallee⟩ | hexported) V
    · obtain ⟨b, hb, rfl⟩ := lowerFunction_eq_ok.1 hlower
      have hbody := emitted_lowerList _ _ _ _ _ hb (Nat.zero_le _) hfew hr
      refine .seq (.keeps (ignores_idle V) (all_map fun _ _ => rfl) fun _ _ _ hσ =>
        .of_idle hσ.1) ?_
      exact ((discipline_branches few _).emitted hbody (fun m hm cs V hcs =>
        triple_straight hw hns (fun k hk => ih k (Nat.lt_of_lt_of_le hk hm)) hcs V) V).weaken
        (fun _ hσ => hσ) fun _ hσ => hσ.2
    · refine .seq (.keeps (ignores_idle V) (all_map fun _ _ => rfl) fun _ _ _ hσ =>
        .of_idle hσ.1) ?_
      cases n with
      | zero => exact fun _ _ => Along.zero
      | succ n =>
        exact .call (fun _ hσ => .of_idle hσ.1) fun f hf =>
          ih n (Nat.lt_succ_self n) f (hcallee f hf) V
    · exact (triple_exported hw ih hexported V).weaken
        (fun _ hσ => hσ) fun _ hσ => hσ.2

/-- **Branches stay confined.**  While the code of a list of instructions runs, calls of functions
    and what follows behind instructions begin while no branch is under way.  The code is left with
    no branch under way, or with one to a depth between the one that was reported and its own. -/
theorem branches_confined {labels : List Label} {height : UInt32}
    {body : List Instr} {pool pool' : Pool} {b : Block}
    (h : lowerBlock scope depth labels height body pool = .ok (b, pool'))
    (hfew : few → Instr.allFit body = true) (hw : World code modules few) (hns : modules ns)
    (hr : Resolved code ns pool pool') (hs : s.Models σ) (hσ : Idle σ) :
    (∀ {ns' c rest outer s'}, Reaches code ⟨[⟨ns, b.commands⟩], s⟩ ⟨⟨ns', c :: rest⟩ :: outer, s'⟩ →
      Holds (Begins few c) s') ∧
    ∀ {limit gas gas' s'}, run code limit gas [⟨ns, b.commands⟩] s = ⟨.ok (), gas', s'⟩ →
      Holds (fun σ => Under depth b.target σ ∧ (b.target = never → Idle σ)) s' := by
  obtain ⟨hnest, hlower⟩ := lowerBlock_eq_ok.1 h
  have hemitted := emitted_lowerList scope depth labels height body hlower hnest hfew hr
  have halong : ∀ n, Along code (BeginsIdle few) n [⟨ns, b.commands⟩]
      (At σ.conditions (Under depth b.target)) s := fun n =>
    (discipline_branches few ns).emitted hemitted (fun m _ cs V hcs =>
      triple_straight hw hns (fun k _ => functionsKeep hw k) hcs V) _ s ⟨σ, hs, hσ, rfl⟩
  refine ⟨fun hreach => Along.allowed halong hreach, fun hrun => ?_⟩
  refine (Along.ends halong (reaches_of_run hrun)).mono fun τ hτ => ⟨hτ.1, fun hnever => ?_⟩
  refine (discipline_branches few ns).settled ?_ hτ.1
  rw [hnever]
  exact lt_never_of_le (Nat.le_refl depth) hnest

/-- A module of one function, with a block that may be left before its end. -/
def earlyModule : Module where
  types := [⟨[], []⟩]
  funcs := [⟨0, [], [.block .empty [.i32Const 1, .brIf 0, .nop]]⟩]

/-- Behind such a block no branch is under way. -/
theorem branches_confined_early : ∃ p, compileModule "demo" earlyModule = .ok p ∧
    ∀ spaces, ∃ b pool, lowerBlock ⟨spaces, 0⟩ 0 [⟨0, 0⟩] 0
      [.block .empty [.i32Const 1, .brIf 0, .nop]] #[] = .ok (b, pool) ∧
    ∀ limit gas gas' s', run (Code.addProgram {} p) limit gas [⟨"demo", b.commands⟩]
      { scores := ({} : Store).scores.set .brDepth noBranch } = ⟨.ok (), gas', s'⟩ →
      Holds Idle s' := by
  refine ⟨_, rfl, fun spaces => ⟨_, _, rfl, fun limit gas gas' s' hrun => ?_⟩⟩
  have hparts : SelfContained [.module "demo" earlyModule] :=
    .single rfl (fun p hp => by cases hp; decide) (by decide)
  have hps : Part.Give [.module "demo" earlyModule] [_] := .cons rfl .nil
  have hmem : Part.module "demo" earlyModule ∈ [.module "demo" earlyModule] := List.mem_cons_self
  have hworld : World _ _ True := (hparts.linked hps).world
    fun _ ns spaces index type locals body ⟨m, hm, hspaces⟩ hentry => by
      cases List.mem_singleton.1 hm
      cases hspaces
      have hmem := Array.mem_of_getElem? (entryAt_eq_ok.1 hentry)
      cases Array.mem_singleton.1 hmem
      decide
  have hr : Resolved _ "demo" #[] #[[]] :=
    hparts.resolved hps hmem ⟨_, _, _, _, rfl, rfl, rfl, rfl, rfl⟩
  have hlower : lowerBlock ⟨spaces, 0⟩ 0 [⟨0, 0⟩] 0
      [.block .empty [.i32Const 1, .brIf 0, .nop]] #[] = .ok (⟨_, never⟩, #[[]]) := rfl
  have hconfined := branches_confined hlower (fun _ => by decide) hworld
    ⟨_, earlyModule, hmem, rfl⟩ hr (Store.models_empty.setReg .brDepth noBranch)
    (State.regs_setReg _ _ _ _)
  exact (hconfined.2 hrun).mono fun σ hσ => hσ.2 rfl

end Machine

end WasmPack
