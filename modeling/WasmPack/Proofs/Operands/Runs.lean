/-
  WasmPack.Proofs.Operands.Runs

  Commands between branches, whole runs of them: they leave the operands of the
  callers alone, and as many of their own as they are reckoned with.  A function
  takes its arguments from its caller's operands and leaves its results there.
-/
import WasmPack.Proofs.Execution.Branches
import WasmPack.Proofs.Operands.Sequences

namespace WasmPack.Machine

open Compile Nbt Wasm

variable {code : Code} {declares : String → IndexSpaces → Prop} {ns : String} {spaces : IndexSpaces}
  {below : List Nbt} {h k l n params : Nat} {R : State → Prop} {c : Command} {cs : List Command}
  {f : Function} {index : UInt32} {entry : FuncEntry} {V : Option Nbt}

/-! ## Commands that call no functions -/

/-- A command among the topmost operands, if what it calls has nothing to do with the stack. -/
theorem triple_isAbove (hw : Settled code declares) (hR : Ignores .settled R)
    (hns : (∃ spaces, declares ns spaces) ∨ ns = sharedNamespace) (hc : c.isAbove k = true)
    (hk : k ≤ h) (hcallee : ∀ m < n, ∀ f, IsUnstacked code declares f →
      Triple code (StackSafe below) m f.ns f.commands (fun σ => Stacked below h σ ∧ R σ)
        (fun σ => Stacked below h σ ∧ R σ)) :
    Triple code (StackSafe below) n ns [c] (fun σ => Stacked below h σ ∧ R σ)
      (fun σ => Stacked below h σ ∧ R σ) := by
  cases n with
  | zero => exact fun _ _ => Along.zero
  | succ n =>
    refine .calls_of_maintains (maintains_isAbove hR hc hk) (Command.callsWithin_of_isAbove hc)
      (fun σ hσ => .of_isAbove (hσ.1.mono hk) hc) (fun q hq f hf => ?_)
      fun tag htag name hname f hf => ?_
    · exact hcallee n (Nat.lt_succ_self n) f (hw.apart hns q hq f hf)
    · obtain rfl := of_decide_eq_true htag
      exact hcallee n (Nat.lt_succ_self n) f (hw.member name hname f hf)

/-- Functions that have nothing to do with the stack leave it as it is. -/
theorem triple_unstacked (hw : Settled code declares) (hR : Ignores .settled R)
    (hf : IsUnstacked code declares f) : Triple code (StackSafe below) n f.ns f.commands
      (fun σ => Stacked below h σ ∧ R σ) (fun σ => Stacked below h σ ∧ R σ) := by
  -- The induction is on the number of commands: what is called has fewer left.
  induction n using Nat.strongRecOn generalizing f with
  | _ n ih =>
    cases hf with
    | commands hns hcs =>
      exact .all fun c hc => triple_isAbove hw hR hns (hcs c hc) (Nat.zero_le h)
        fun m hm f hf => ih m hm hf
    | forwarded hf =>
      cases n with
      | zero => exact fun _ _ => Along.zero
      | succ n =>
        exact .call (fun σ hσ => .call hσ.1 _) fun g hg => ih n (Nat.lt_succ_self n) (hf g hg)

/-- Commands leave the operands that they are reckoned with, if what they call does. -/
theorem triple_lifts (hw : Settled code declares) (hR : Ignores .settled R)
    (hns : declares ns spaces) (hcs : LiftsAll h cs k)
    (hcallee : ∀ m < n, ∀ {f h k l}, IsPassing code declares k l f →
      Triple code (StackSafe below) m f.ns f.commands (fun σ => Stacked below (h + k) σ ∧ R σ)
        (fun σ => Stacked below (h + l) σ ∧ R σ)) :
    Triple code (StackSafe below) n ns cs (fun σ => Stacked below h σ ∧ R σ)
      (fun σ => Stacked below k σ ∧ R σ) := by
  have hstack := hR.mono stack_among_settled
  induction hcs with
  | nil => exact .nil fun _ hσ => hσ
  | @cons h k l c cs hc _ ih =>
    refine .cons ?_ ih
    cases hc with
    | above hc =>
      exact triple_isAbove hw hR (.inl ⟨spaces, hns⟩) hc (Nat.le_refl h) fun m _ f hf =>
        triple_unstacked hw hR hf
    | push value => exact .moves (fun σ hσ => .push hσ.1) (moves_push hstack)
    | pushFrom hp habove =>
      exact .moves (fun σ hσ => .pushFrom hσ.1 hp habove) (moves_pushFrom hstack hp)
    | drop hlow hneg =>
      exact .moves (fun σ hσ => .drop hσ.1 hlow hneg) (moves_drop hstack hlow hneg)
    | operation hq =>
      cases n with
      | zero => exact fun _ _ => Along.zero
      | succ n =>
        exact .call (fun σ hσ => .call hσ.1 _) fun f hf =>
          hcallee n (Nat.lt_succ_self n) (hw.passes hns hq hf)

/-- Operations take their operands and leave others. -/
theorem triple_passing (hw : Settled code declares) (hR : Ignores .settled R) {k l : Nat}
    (hf : IsPassing code declares k l f) : Triple code (StackSafe below) n f.ns f.commands
      (fun σ => Stacked below (h + k) σ ∧ R σ) (fun σ => Stacked below (h + l) σ ∧ R σ) := by
  induction n using Nat.strongRecOn generalizing f h k l with
  | _ n ih =>
    cases hf with
    | commands hns hcs => exact triple_lifts hw hR hns (hcs h) fun m hm {_ _ _ _} hf => ih m hm hf
    | forwarded hf =>
      cases n with
      | zero => exact fun _ _ => Along.zero
      | succ n =>
        exact .call (fun σ hσ => .call hσ.1 _) fun g hg => ih n (Nat.lt_succ_self n) (hf g hg)

/-- Commands leave the operands that they are reckoned with. -/
theorem triple_liftsAll (hw : Settled code declares) (hR : Ignores .settled R)
    (hns : declares ns spaces) (hcs : LiftsAll h cs k) : Triple code (StackSafe below) n ns cs
      (fun σ => Stacked below h σ ∧ R σ) (fun σ => Stacked below k σ ∧ R σ) :=
  triple_lifts hw hR hns hcs fun _ _ {_ _ _ _} hf => triple_passing hw hR hf

/-! ## Calls of functions -/

/-- No branch is under way, and at least a number of operands are there. -/
def Level (below : List Nbt) (h : Nat) (σ : State) : Prop := Stacked below h σ ∧ Idle σ

theorem Level.mono {σ : State} (hσ : Level below h σ) (hk : k ≤ h) : Level below k σ :=
  ⟨hσ.1.mono hk, hσ.2⟩

theorem ignores_idle_at (V : Option Nbt) : Ignores .settled (fun σ => Idle σ ∧ σ.conditions = V) :=
  (ignores_regs rfl (· = some noBranch)).and
    ((ignores_conditions V).mono ⟨fun _ _ => rfl, fun _ hk => hk⟩)

/-- The same where no branch is under way. -/
theorem triple_level (hw : Settled code declares) (hns : declares ns spaces)
    (hcs : LiftsAll h cs k) (V : Option Nbt) : Triple code (StackSafe below) n ns cs
      (At V (Level below h)) (At V (Level below k)) :=
  (triple_liftsAll hw (ignores_idle_at V) hns hcs).weaken
    (fun _ hσ => ⟨hσ.1.1, hσ.1.2, hσ.2⟩) fun _ hσ => ⟨⟨hσ.1, hσ.2.1⟩, hσ.2.2⟩

/-- Functions that begin while no branch is under way leave the operands below theirs alone, and
    their results above them. -/
def OperandsKeep (code : Code) (declares : String → IndexSpaces → Prop) (n : Nat) : Prop :=
  ∀ {ns spaces index entry f}, declares ns spaces → spaces.funcAt index = .ok entry →
    code.function ((Symbol.func index).qualifiedName ns) = .ok f → ∀ below V,
      Triple code (StackSafe below) n f.ns f.commands (At V (Level below 0))
        (At V (Stacked below (arityOf entry.type).results.toNat))

/-- The arguments of a call are copied into the frame of the callee, and dropped. -/
theorem liftsAll_arguments (hparams : params ≤ 2 ^ 31) : LiftsAll (h + params)
    ([.append .frames .emptyList] ++ (List.range params).map (moveArgument params) ++
      List.replicate params .dropOperand) h := by
  have hdrops : ∀ m, LiftsAll (h + m) (List.replicate m .dropOperand) h := by
    intro m
    induction m with
    | zero => exact .nil
    | succ m ih => exact .cons .dropTop ih
  refine .append (.append (.above (k := 0) (by decide) (Nat.zero_le _)) (.above (k := params)
    (all_map fun j hj => ?_) (Nat.le_add_left _ _))) (hdrops params)
  have hlt := List.mem_range.1 hj
  have hvalue : (Int32.ofInt ((j : Int) - params)).toInt = (j : Int) - params :=
    Int32.toInt_ofInt_of_le (by omega) (by omega)
  exact Bool.and_eq_true_iff.2
    ⟨rfl, Path.isAbove_operand (by rw [hvalue]; omega) (by rw [hvalue]; omega)⟩

/-- The call of a function takes its arguments, and leaves its results. -/
theorem triple_callOperands (hw : Settled code declares) (hns : declares ns spaces)
    (hentry : spaces.funcAt index = .ok entry) (hcallee : ∀ m < n, OperandsKeep code declares m)
    (hparams : params ≤ 2 ^ 31) (below : List Nbt) (h : Nat) (V : Option Nbt) :
    Triple code (StackSafe below) n ns (callSequence (.func index) params)
      (At V (Level below (h + params)))
      (At V (Level below (h + (arityOf entry.type).results.toNat))) := by
  refine .seq (triple_level hw hns (liftsAll_arguments hparams) V) ?_
  refine .cons (J := At V (Stacked below (h + (arityOf entry.type).results.toNat))) ?_
    (.cons (J := At V (Stacked below (h + (arityOf entry.type).results.toNat))) ?_ ?_)
  · cases n with
    | zero => exact fun _ _ => Along.zero
    | succ n =>
      -- The operands that are left are those of a caller while the callee runs.
      refine .of_forall fun σ ⟨⟨⟨own, hlen, hstack⟩, hidle⟩, hV⟩ => ?_
      have hcall : Triple code (StackSafe (below ++ own)) (n + 1) ns [.call (.func index)]
          (At V (Level (below ++ own) 0))
          (At V (Stacked (below ++ own) (arityOf entry.type).results.toNat)) :=
        .call (fun σ hσ => .call hσ.1.1 _) fun f hf =>
          hcallee n (Nat.lt_succ_self n) hns hentry hf _ V
      refine (hcall.allow fun _ _ _ => .caller).weaken ?_ fun τ hτ => hτ.mono fun _ hτ =>
        hτ.caller.mono (Nat.add_le_add_right hlen _)
      rintro τ rfl
      exact ⟨⟨⟨[], Nat.zero_le _, by rwa [List.append_nil]⟩, hidle⟩, hV⟩
  · have hclose : Command.isAbove 0 (.remove .frame) = true := rfl
    exact triple_isAbove hw ((ignores_conditions V).mono ⟨fun _ _ => rfl, fun _ hk => hk⟩)
      (.inl ⟨spaces, hns⟩) hclose (Nat.zero_le _) fun m _ f hf => triple_unstacked hw
        ((ignores_conditions V).mono ⟨fun _ _ => rfl, fun _ hk => hk⟩) hf
  · exact .moves (fun σ hσ => .of_staysIn (C := .nothing) hσ.1 rfl) (.setScore fun σ hσ =>
      ⟨⟨hσ.1, State.regs_setReg _ _ _ _⟩, hσ.2⟩)

end WasmPack.Machine
