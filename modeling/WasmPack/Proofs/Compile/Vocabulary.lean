/-
  WasmPack.Proofs.Compile.Vocabulary

  What code generation stays within.  A vocabulary is a kind of commands that has
  what control flow is made of; calls of fragments belong to it as soon as there
  are so many fragments.  Code generation adds nothing outside of a vocabulary,
  if the instructions without branches that are live do not.
-/
import WasmPack.Proofs.Compile.Inversion
import WasmPack.Proofs.Compile.Live

namespace WasmPack.Compile

open Wasm

variable {α β : Type} {cs ds : List Command} {c : Command} {n n' : Nat}

/-! ## Vocabularies -/

/-- The commands that control flow is made of, apart from calls: a branch is set off or ends,
    operands go, and a condition is taken up or put away. -/
inductive IsControl : Command → Prop where
  | setDepth (value : Int32) : IsControl (.setScore .brDepth value)
  | drop (i : Int32) : IsControl (.remove (.operand i))
  | takeOperand : IsControl (.load .a top)
  | takeCondition : IsControl (.load .a (Path.conditions.index (-1)))
  | keepCondition : IsControl (.appendFrom .conditions top)
  | forgetCondition : IsControl (.remove (Path.conditions.index (-1)))

/-- The conditions under which control flow runs a command. -/
inductive IsGuard : Modifier → Prop where
  | operandIn (range : Range) : IsGuard (.ifIn .a range)
  | operandOut (range : Range) : IsGuard (.unlessIn .a range)
  | depthIn (range : Range) : IsGuard (.ifIn .brDepth range)

/-- A kind of commands, by the number of fragments there are. -/
structure Vocabulary where
  Has : Nat → Command → Prop
  grows : ∀ {n n' c}, n ≤ n' → Has n c → Has n' c
  control : ∀ {n c}, IsControl c → Has n c
  fragment : ∀ {n id}, id < n → Has n (callFragment id)
  guarded : ∀ {n c g}, IsGuard g → Has n c → Has n (c.guarded g)

namespace Vocabulary

variable (V : Vocabulary)

/-- All the commands belong to the vocabulary. -/
def HasAll (n : Nat) (cs : List Command) : Prop := ∀ c ∈ cs, V.Has n c

variable {V}

@[simp] theorem hasAll_nil : V.HasAll n [] := fun _ h => nomatch h

@[simp] theorem hasAll_cons : V.HasAll n (c :: cs) ↔ V.Has n c ∧ V.HasAll n cs :=
  List.forall_mem_cons

@[simp] theorem hasAll_append : V.HasAll n (cs ++ ds) ↔ V.HasAll n cs ∧ V.HasAll n ds :=
  List.forall_mem_append

theorem HasAll.grow (h : V.HasAll n cs) (hle : n ≤ n') : V.HasAll n' cs :=
  fun c hc => V.grows hle (h c hc)

theorem hasAll_popA : V.HasAll n popA :=
  hasAll_cons.2 ⟨V.control .takeOperand, hasAll_cons.2 ⟨V.control (.drop _), hasAll_nil⟩⟩

theorem has_foldr_guarded {ms : List Modifier} (hms : ∀ m ∈ ms, IsGuard m) (hc : V.Has n c) :
    V.Has n (ms.foldr (fun m c => c.guarded m) c) := by
  induction ms with
  | nil => exact hc
  | cons m ms ih =>
    have htail := ih fun m' hm' => hms m' (List.mem_cons_of_mem m hm')
    exact V.guarded (hms m List.mem_cons_self) htail

/-! ## Generation within a vocabulary -/

/-- Generation from a pool of at least so many fragments keeps the pool within the vocabulary, and
    gives what is required with the number of fragments behind it. -/
def Emits (V : Vocabulary) (n : Nat) (x : Gen α) (Q : Nat → α → Prop) : Prop :=
  ∀ pool : Pool, n ≤ pool.size → (∀ cs ∈ pool, V.HasAll pool.size cs) → ∀ a pool',
    x pool = .ok (a, pool') →
      pool.size ≤ pool'.size ∧ Q pool'.size a ∧ ∀ cs ∈ pool', V.HasAll pool'.size cs

namespace Emits

variable {Q : Nat → α → Prop} {R : Nat → β → Prop}

theorem pure {a : α} (h : ∀ n', n ≤ n' → Q n' a) : V.Emits n (pure a) Q := by
  intro pool hn hpool b pool' hx
  obtain ⟨rfl, rfl⟩ := gen_pure_eq_ok.1 hx
  exact ⟨Nat.le_refl _, h _ hn, hpool⟩

theorem bind {x : Gen α} {f : α → Gen β} (hx : V.Emits n x Q)
    (hf : ∀ n' a, n ≤ n' → Q n' a → V.Emits n' (f a) R) : V.Emits n (x >>= f) R := by
  intro pool hn hpool b pool' hbind
  obtain ⟨a, pool₁, hxa, hfa⟩ := gen_bind_eq_ok.1 hbind
  obtain ⟨hle, ha, hpool₁⟩ := hx pool hn hpool a pool₁ hxa
  obtain ⟨hle', hb, hpool'⟩ := hf pool₁.size a (by omega) ha pool₁ (Nat.le_refl _) hpool₁ b pool' hfa
  exact ⟨by omega, hb, hpool'⟩

theorem lift {x : Except CompileError α} (h : ∀ a, x = .ok a → ∀ n', n ≤ n' → Q n' a) :
    V.Emits n (x : Gen α) Q := by
  intro pool hn hpool a pool' hx
  obtain ⟨hxa, rfl⟩ := gen_lift_eq_ok.1 hx
  exact ⟨Nat.le_refl _, h a hxa _ hn, hpool⟩

/-- A success of a step that may refuse the module is all there is to it. -/
theorem accept {x : Except CompileError α} : V.Emits n (x : Gen α) fun _ a => x = .ok a :=
  lift fun _ h _ _ => h

/-- What any success gives is given here too. -/
theorem also {x : Gen α} {P : α → Prop} (hx : V.Emits n x Q)
    (h : ∀ {pool a pool'}, x pool = .ok (a, pool') → P a) :
    V.Emits n x fun n' a => Q n' a ∧ P a := by
  intro pool hn hpool a pool' hxa
  obtain ⟨hle, ha, hpool'⟩ := hx pool hn hpool a pool' hxa
  exact ⟨hle, ⟨ha, h hxa⟩, hpool'⟩

/-- Nothing is required of what is discarded. -/
theorem discard {x : Gen α} (h : V.Emits n x Q) : V.Emits n (discard x) fun _ _ => True := by
  have hbind : Functor.discard x = x >>= fun _ => Pure.pure () := rfl
  rw [hbind]
  exact bind h fun _ _ _ _ => pure fun _ _ => trivial

theorem reserve : V.Emits n Compile.reserve fun n' id => id < n' := by
  intro pool hn hpool a pool' hx
  obtain ⟨rfl, rfl⟩ := reserve_eq_ok.1 hx
  rw [Array.size_push]
  refine ⟨by omega, by omega, fun cs hcs => ?_⟩
  obtain hcs | rfl := Array.mem_push.1 hcs
  · exact (hpool cs hcs).grow (by omega)
  · exact hasAll_nil

theorem fill {id : Nat} (h : V.HasAll n cs) : V.Emits n (Compile.fill id cs) fun _ _ => True := by
  intro pool hn hpool a pool' hx
  obtain rfl := fill_eq_ok.1 hx
  rw [Array.size_setIfInBounds]
  refine ⟨Nat.le_refl _, trivial, fun ds hds => ?_⟩
  obtain hds | rfl := Array.mem_or_eq_of_mem_setIfInBounds hds
  · exact hpool ds hds
  · exact h.grow hn

theorem asOne (h : V.HasAll n cs) :
    V.Emits n (Compile.asOne cs) fun n' o => V.HasAll n' o.toList := by
  unfold Compile.asOne
  split
  · exact .pure fun n' _ => hasAll_nil
  · exact .pure fun n' hle => h.grow hle
  · refine .bind .reserve fun n₁ id hle hid => .bind (.fill (h.grow hle)) fun n₂ _ hle' _ =>
      .pure fun n₃ hle'' => hasAll_cons.2 ⟨V.fragment ?_, hasAll_nil⟩
    omega

theorem mapM {f : α → Gen β} {xs : List α} (hR : ∀ {n n' y}, n ≤ n' → R n y → R n' y)
    (h : ∀ x ∈ xs, ∀ n, V.Emits n (f x) R) :
    V.Emits n (xs.mapM f) fun n' ys => ∀ y ∈ ys, R n' y := by
  induction xs generalizing n with
  | nil =>
    rw [List.mapM_nil]
    exact .pure fun _ _ y hy => nomatch hy
  | cons x xs ih =>
    rw [List.mapM_cons]
    refine .bind (h x List.mem_cons_self n) fun n₁ y _ hy =>
      .bind (ih fun x' hx' => h x' (List.mem_cons_of_mem x hx')) fun n₂ ys hle hys =>
        .pure fun n₃ hle' z hz => ?_
    obtain rfl | hz := List.mem_cons.1 hz
    · exact hR (by omega) hy
    · exact hR hle' (hys z hz)

end Emits

/-! ## Branches -/

/-- The commands of a step belong to the vocabulary, and its guard is one of control flow. -/
def HasStep (V : Vocabulary) (n : Nat) (step : Step) : Prop :=
  V.HasAll n step.commands ∧
    ∀ height target guard, step.flow = .guarded height target guard → IsGuard guard

theorem hasStep_stop {target : Nat} (h : V.HasAll n cs) : V.HasStep n ⟨cs, .stop target⟩ :=
  ⟨h, fun _ _ _ hf => nomatch hf⟩

theorem hasStep_escape {depth target : Nat} {height : UInt32} (h : V.HasAll n cs) :
    V.HasStep n ⟨cs, escape depth target height⟩ := by
  refine ⟨h, fun height' target' guard hf => ?_⟩
  unfold escape at hf
  split at hf
  · cases hf
    exact .depthIn _
  · cases hf

theorem hasAll_branchCommands {height : UInt32} {target : Nat} {l : Label} :
    V.HasAll n (branchCommands height target l) := by
  refine hasAll_append.2 ⟨fun c hc => ?_, hasAll_cons.2 ⟨V.control (.setDepth _), hasAll_nil⟩⟩
  rw [List.eq_of_mem_replicate hc]
  exact V.control (.drop _)

theorem isGuard_outsideTable {table : List UInt32} : ∀ m ∈ outsideTable table, IsGuard m := by
  intro m hm
  unfold outsideTable at hm
  split at hm
  · cases hm
  · rw [List.mem_singleton.1 hm]
    exact .operandOut _

section Branches

variable {mnemonic : String} {depth : Nat} {labels : List Label} {height label : UInt32}

theorem emits_branchIf {condition : List Modifier} (hms : ∀ m ∈ condition, IsGuard m) :
    V.Emits n (branchIf mnemonic depth labels height label condition) fun n' r =>
      V.HasAll n' r.1 := by
  refine .bind .accept fun n₁ target _ _ => .bind .accept fun n₂ cs _ hcs =>
    .bind (.asOne ?_) fun n₃ jump _ hjump => .pure fun n₄ hle c hc => ?_
  · obtain ⟨-, rfl⟩ := branch_eq_ok.1 hcs
    exact hasAll_branchCommands
  · obtain ⟨d, hd, rfl⟩ := List.mem_map.1 hc
    exact has_foldr_guarded hms (V.grows hle (hjump d hd))

theorem emits_lowerBr :
    V.Emits n (lowerBr mnemonic depth labels height label : Gen Step) V.HasStep := by
  refine .lift fun step h n' _ => ?_
  obtain ⟨target, l, -, -, rfl⟩ := lowerBr_eq_ok.1 h
  exact hasStep_stop hasAll_branchCommands

theorem emits_lowerBrIf :
    V.Emits n (lowerBrIf mnemonic depth labels height label) V.HasStep := by
  refine .bind (.discard .accept) fun n₁ _ _ _ => .bind .accept fun n₂ base _ _ =>
    .bind (emits_branchIf ?_) fun n₃ r _ hr => .pure fun n₄ hle =>
      ⟨hasAll_append.2 ⟨hasAll_popA, hr.grow hle⟩, ?_⟩
  · intro m hm
    rw [List.mem_singleton.1 hm]
    exact .operandOut _
  · intro height' target' guard hf
    cases hf
    exact .operandIn _

theorem emits_branchCases {i : Nat} {table : List UInt32} :
    V.Emits n (branchCases mnemonic depth labels height i table) fun n' r => V.HasAll n' r.1 := by
  induction table generalizing i n with
  | nil => exact .pure fun _ _ => hasAll_nil
  | cons label rest ih =>
    refine .bind (emits_branchIf ?_) fun n₁ r _ hr => .bind ih fun n₂ r' hle hr' =>
      .pure fun n₃ hle' => ?_
    · intro m hm
      rw [List.mem_singleton.1 hm]
      exact .operandIn _
    · exact hasAll_append.2 ⟨hr.grow (by omega), hr'.grow hle'⟩

theorem emits_lowerBrTable {table : List UInt32} {default : UInt32} :
    V.Emits n (lowerBrTable mnemonic depth labels height table default) V.HasStep := by
  refine .bind .accept fun n₁ base _ _ => .bind emits_branchCases fun n₂ r _ hr =>
    .bind (emits_branchIf isGuard_outsideTable) fun n₃ r' hle hr' =>
      .pure fun n₄ hle' => hasStep_stop ?_
  simp only [hasAll_append]
  exact ⟨⟨hasAll_popA, hr.grow (by omega)⟩, hr'.grow hle'⟩

end Branches

/-! ## Constructs -/

theorem has_catchBranch {depth : Nat} : V.Has n (catchBranch depth) :=
  V.guarded (.depthIn _) (V.control (.setDepth _))

theorem hasStep_closed {depth : Nat} {code : Block} {height : UInt32}
    (h : V.HasAll n code.commands) : V.HasStep n (closed depth code height) := by
  unfold closed
  refine hasStep_escape (hasAll_append.2 ⟨h, ?_⟩)
  split
  · exact hasAll_cons.2 ⟨has_catchBranch, hasAll_nil⟩
  · exact hasAll_nil

theorem emits_lowerLoop {depth : Nat} {code : Block} {height : UInt32}
    (h : V.HasAll n code.commands) : V.Emits n (lowerLoop depth code height) V.HasStep := by
  unfold lowerLoop
  split
  · refine .bind .reserve fun n₁ id hle hid => .bind (.fill ?_) fun n₂ _ hle' _ =>
      .pure fun n₃ hle'' => hasStep_escape (hasAll_cons.2 ⟨V.fragment ?_, hasAll_nil⟩)
    · simp only [hasAll_append, hasAll_cons]
      exact ⟨⟨⟨V.control (.setDepth _), hasAll_nil⟩, h.grow hle⟩,
        V.guarded (.depthIn _) (V.fragment hid), hasAll_nil⟩
    · omega
  · exact .pure fun n' hle => hasStep_escape (h.grow hle)

theorem hasAll_choose {consequent alternative : Option Command}
    (h : V.HasAll n consequent.toList) (h' : V.HasAll n alternative.toList) :
    V.HasAll n (choose consequent alternative) := by
  unfold choose
  split
  · refine hasAll_append.2 ⟨hasAll_popA, fun c hc => ?_⟩
    obtain ⟨d, hd, rfl⟩ := List.mem_map.1 hc
    exact V.guarded (.operandOut _) (h d hd)
  · have h' := h' _ (Option.mem_toList.2 rfl)
    simp only [hasAll_append, hasAll_cons]
    refine ⟨⟨⟨V.control .keepCondition, V.control (.drop _), hasAll_nil⟩, fun c hc => ?_⟩,
      V.control .takeCondition, V.guarded (.operandIn _) h', V.control .forgetCondition,
      hasAll_nil⟩
    obtain ⟨d, hd, hc⟩ := List.mem_flatMap.1 hc
    obtain rfl | hc := List.mem_cons.1 hc
    · exact V.control .takeCondition
    · rw [List.mem_singleton.1 hc]
      exact V.guarded (.operandOut _) (h d hd)

/-! ## Instructions -/

/-- The vocabulary has the commands of live instructions without branches. -/
def Covers (V : Vocabulary) (scope : Scope) (P : Instr → Bool) : Prop :=
  ∀ {height height' : UInt32} {i : Instr} {cs : List Command}, P i = true →
    lowerStraight scope height i = .ok (cs, height') → ∀ n, V.HasAll n cs

variable {scope : Scope} {P : Instr → Bool}

/-- Behind an instruction that stops, code generation does not go on. -/
theorem exists_stop_of_lowerInstr {depth : Nat} {labels : List Label} {height : UInt32} {i : Instr}
    {pool pool' : Pool} {step : Step} (hi : i.stops = true)
    (h : lowerInstr scope depth labels height i pool = .ok (step, pool')) :
    ∃ target, step.flow = .stop target := by
  cases i with
  | unreachable =>
    obtain ⟨rfl, -⟩ := lowerInstr_unreachable.1 h
    exact ⟨_, rfl⟩
  | br label =>
    obtain ⟨target, l, -, -, rfl⟩ := lowerBr_eq_ok.1 (lowerInstr_br.1 h).1
    exact ⟨_, rfl⟩
  | brTable table default =>
    rw [lowerInstr_brTable] at h
    obtain ⟨_, _, _, _, _, -, -, -, rfl⟩ := lowerBrTable_eq_ok.1 h
    exact ⟨_, rfl⟩
  | ret =>
    obtain ⟨target, l, -, -, rfl⟩ := lowerBr_eq_ok.1 (lowerInstr_ret.1 h).1
    exact ⟨_, rfl⟩
  | _ => cases hi

mutual

theorem emits_lowerInstr (hV : V.Covers scope P) (n depth : Nat) (labels : List Label)
    (height : UInt32) :
    ∀ i : Instr, i.liveAll P = true → V.Emits n (lowerInstr scope depth labels height i) V.HasStep
  | .unreachable, _ => .pure fun _ _ =>
    hasStep_stop (hasAll_cons.2 ⟨V.control (.setDepth _), hasAll_nil⟩)
  | .block type body, h => .bind .accept fun _ _ _ _ => .bind .accept fun _ _ _ _ =>
      .bind .accept fun _ _ _ _ =>
        .bind (emits_lowerList hV _ (depth + 1) _ height body (Bool.and_eq_true_iff.1 h).2)
          fun _ _ _ hcode => .bind .accept fun _ _ hle _ => .pure fun _ hle' =>
            hasStep_closed ((hcode.grow hle).grow hle')
  | .loop type body, h => .bind .accept fun _ _ _ _ => .bind .accept fun _ _ _ _ =>
      .bind .accept fun _ _ _ _ =>
        .bind (emits_lowerList hV _ (depth + 1) _ height body (Bool.and_eq_true_iff.1 h).2)
          fun _ _ _ hcode => .bind .accept fun _ _ hle _ => emits_lowerLoop (hcode.grow hle)
  | .ifElse type consequent alternative, h => by
    obtain ⟨h, h'⟩ := Bool.and_eq_true_iff.1 (Bool.and_eq_true_iff.1 h).2
    -- What one arm has given stands while the other adds fragments.
    refine .bind .accept fun _ _ _ _ => .bind .accept fun _ height _ _ =>
      .bind .accept fun _ _ _ _ => .bind .accept fun _ _ _ _ =>
        .bind (emits_lowerList hV _ (depth + 1) _ height consequent h) fun n₁ first _ hfirst =>
          .bind (emits_lowerList hV _ (depth + 1) _ height alternative h')
            fun n₂ second hle hsecond =>
              .bind (.asOne (hfirst.grow hle)) fun n₃ c hle' hc =>
                .bind (.asOne (hsecond.grow hle')) fun n₄ d hle'' hd =>
                  .bind .accept fun n₅ _ hle₅ _ => .pure fun n₆ hle₆ => ?_
    exact hasStep_closed (hasAll_choose (hc.grow (by omega)) (hd.grow (by omega)))
  | .br label, _ => emits_lowerBr
  | .brIf label, _ => emits_lowerBrIf
  | .brTable table default, _ => emits_lowerBrTable
  | .ret, _ => emits_lowerBr
  | .nop, h | .call _, h | .callIndirect _ _, h | .drop, h | .select, h | .localGet _, h
  | .localSet _, h | .localTee _, h | .globalGet _, h | .globalSet _, h | .load _ _, h
  | .store _ _, h | .memorySize _, h | .memoryGrow _, h | .i32Const _, h | .i64Const _, h
  | .f32Const _, h | .f64Const _, h | .numeric _, h =>
    .bind .accept fun _ _ _ hr => .pure fun n' _ =>
      ⟨hV (Instr.self_of_liveAll h) hr n', fun _ _ _ hf => nomatch hf⟩

/-- **Code generation stays within a vocabulary** that covers the instructions without branches. -/
theorem emits_lowerList (hV : V.Covers scope P) (n depth : Nat) (labels : List Label)
    (height : UInt32) : ∀ body : List Instr, Instr.allLive P body = true →
      V.Emits n (lowerList scope depth labels height body) fun n' code => V.HasAll n' code.commands
  | [], _ => .pure fun _ _ => hasAll_nil
  | i :: rest, h => by
    obtain ⟨hi, hrest⟩ := Instr.allLive_cons.1 h
    rw [lowerList]
    refine .bind ((emits_lowerInstr hV n depth labels height i hi).also fun hx hs =>
      exists_stop_of_lowerInstr hs hx) fun n₁ step _ hstep => ?_
    obtain ⟨⟨hcs, hguard⟩, hstop⟩ := hstep
    -- The rest is looked at only if it is live.
    have hlive : (∀ target, step.flow ≠ .stop target) → Instr.allLive P rest = true := fun hne =>
      hrest (Bool.eq_false_iff.2 fun hs => (hstop hs).elim hne)
    cases hf : step.flow with
    | next height =>
      have hrest := hlive fun _ h => nomatch hf.symm.trans h
      exact .bind (emits_lowerList hV _ depth labels height rest hrest) fun _ _ hle hcode =>
        .pure fun _ hle' => hasAll_append.2 ⟨hcs.grow (by omega), hcode.grow hle'⟩
    | guarded height target guard =>
      have hrest := hlive fun _ h => nomatch hf.symm.trans h
      simp only
      split
      · exact .pure fun _ hle => hcs.grow hle
      · refine .bind .reserve fun _ id hle hid =>
          .bind (emits_lowerList hV _ depth labels height rest hrest) fun _ _ hle' hcode =>
            .bind (.fill hcode) fun _ _ hle'' _ => .pure fun _ hle₃ => hasAll_append.2 ⟨?_, ?_⟩
        · exact hcs.grow (by omega)
        · exact hasAll_cons.2
            ⟨V.guarded (hguard _ _ _ hf) (V.fragment (by omega)), hasAll_nil⟩
    | stop target => exact .pure fun _ hle => hcs.grow hle

end

end Vocabulary

end WasmPack.Compile
