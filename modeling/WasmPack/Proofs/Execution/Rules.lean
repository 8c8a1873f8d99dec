/-
  WasmPack.Proofs.Execution.Rules

  Triples of the commands that compiled code puts between instructions: scores
  that are set and loaded, guards, branches that are set off, and conditions that
  are put aside while an arm of an `if` runs.
-/
import WasmPack.Proofs.Compile.Calm
import WasmPack.Proofs.Compile.Emitted
import WasmPack.Proofs.Execution.Along
import WasmPack.Proofs.State.Lists

namespace WasmPack

namespace Nbt

variable {items : Array Nbt} {elements : Array Int8} {v v' value : Nbt} {segments : List Segment}

/-! ## Values at the end -/

/-- One value is another with something behind its last element. -/
structure Pushed (v v' : Nbt) : Prop where
  removed : remove [.index (-1)] v' = (some (), v)
  there : ∃ slot, v'.lookup [.index (-1)] = some slot

theorem eraseIdxIfInBounds_push {α : Type} (xs : Array α) (x : α) :
    (xs.push x).eraseIdxIfInBounds xs.size = xs := by
  apply Array.toList_inj.1
  rw [Array.eraseIdxIfInBounds, dif_pos (by simp), Array.toList_eraseIdx, Array.toList_push,
    List.eraseIdx_append_of_length_le (by simp)]
  simp

theorem pushed_list (items : Array Nbt) (value : Nbt) :
    Pushed (list items) (list (items.push value)) := by
  have hp : position? (-1) (items.push value).size = some items.size := by
    rw [position?_last (by simp), Array.size_push, Nat.add_sub_cancel]
  refine ⟨?_, .stored value, ?_⟩
  · show removeChild (.index (-1)) (list (items.push value)) = _
    simp only [removeChild, hp, eraseIdxIfInBounds_push]
  · rw [lookup_index hp Array.getElem?_push_size]
    rfl

theorem pushed_bytes (elements : Array Int8) (b : Int8) :
    Pushed (bytes elements) (bytes (elements.push b)) := by
  have hp : position? (-1) (elements.push b).size = some elements.size := by
    rw [position?_last (by simp), Array.size_push, Nat.add_sub_cancel]
  refine ⟨?_, .element b, lookup_bytes hp Array.getElem?_push_size⟩
  show removeChild (.index (-1)) (bytes (elements.push b)) = _
  simp only [removeChild, hp, eraseIdxIfInBounds_push]

/-- What has been appended is at the end. -/
theorem pushed_of_append (h : append [] value v = (some true, v')) : Pushed v v' := by
  have hpush : ∃ u, push value v = (some u, v') := by
    have happend : append [] value v =
        (some (push value v).1.isSome, (push value v).2) := rfl
    rw [happend, Prod.mk.injEq, Option.some.injEq] at h
    obtain ⟨u, hu⟩ := Option.isSome_iff_exists.1 h.1
    exact ⟨u, Prod.ext hu h.2⟩
  obtain ⟨u, hpush⟩ := hpush
  unfold push at hpush
  split at hpush
  · cases hpush
    exact pushed_list _ _
  · split at hpush
    · cases hpush
      exact pushed_bytes _ _
    · cases hpush
  · cases hpush

end Nbt

/-- Everything but the conditions under way. -/
def Writes.unconditional : Writes := ⟨fun _ => true, fun k => decide (k ≠ "conditions")⟩

/-- The operand stack. -/
def Writes.stack : Writes := ⟨fun _ => false, fun k => decide (k = "stack")⟩

namespace Machine

open Compile

variable {tags : TagTable} {code : Code} {ok : String → Command → State → Prop} {n : Nat}
  {ns : String} {c : Command} {cs : List Command} {I J : State → Prop} {σ : State} {s : Store}
  {g : Modifier} {r : Register} {W : Writes} {t : Nat}

/-! ## Triples -/

/-- The first of the commands is allowed. -/
theorem Triple.now (h : Triple code ok (n + 1) ns (c :: cs) I J) (hs : s.Models σ) (hI : I σ) :
    ok ns c σ :=
  (Along.cons.1 (h s ⟨σ, hs, hI⟩)).1.of_models hs

theorem Triple.of_exists {α : Type} {I : α → State → Prop}
    (h : ∀ x, Triple code ok n ns cs (I x) J) : Triple code ok n ns cs (fun σ => ∃ x, I x σ) J := by
  rintro s ⟨σ, hs, x, hI⟩
  exact h x s ⟨σ, hs, hI⟩

/-- What is known before the commands. -/
theorem Triple.given {p : Prop} (h : p → Triple code ok n ns cs I J) :
    Triple code ok n ns cs (fun σ => p ∧ I σ) J := by
  rintro s ⟨σ, hs, hp, hI⟩
  exact h hp s ⟨σ, hs, hI⟩

/-- What every one of the commands keeps, all of them do. -/
theorem Triple.all (h : ∀ c ∈ cs, Triple code ok n ns [c] I I) : Triple code ok n ns cs I I := by
  induction cs with
  | nil => exact .nil fun _ hσ => hσ
  | cons c cs ih =>
    exact .cons (h c List.mem_cons_self) (ih fun d hd => h d (List.mem_cons_of_mem c hd))

/-- Commands that call nothing keep what does not depend on what they may write. -/
theorem Triple.keeps (hI : Ignores W I) (hcs : All (·.staysIn W .nothing) cs)
    (hok : ∀ c ∈ cs, ∀ σ, I σ → ok ns c σ) : Triple code ok n ns cs I I :=
  .all fun c hc => .moves (hok c hc) (.within (Command.callsWithin_of_staysIn (hcs c hc))
    (Command.isWithin_of_staysIn (hcs c hc)) hI)

/-! ## Scores and guards -/

theorem Moves.setScore {m : Int32} (h : ∀ σ, I σ → J (σ.setReg r m)) :
    Moves tags ns (.setScore r m) I J :=
  .of_steps fun σ hσ => .inl ⟨_, .plain (.setScore r m) performs_setScore, h σ hσ⟩

/-- A number is loaded from where there is one. -/
theorem Moves.load {path : Path} (hp : Keyed path) (h : ∀ σ, I σ → ∃ slot,
    σ.lookup ns path = some slot ∧ J (σ.setReg r slot.measure)) :
    Moves tags ns (.load r path) I J := by
  refine .of_steps fun σ hσ => .inl ?_
  obtain ⟨slot, hslot, hJ⟩ := h σ hσ
  exact ⟨_, .stored (.getData path) (performs_getData hp hslot) stores_score, hJ⟩

theorem Moves.guarded (hg : Modifier.IsCondition g)
    (h : Moves tags ns c (fun σ => I σ ∧ σ.allows g = some true) J)
    (hblocked : ∀ σ, I σ → σ.allows g = some false → J σ) :
    Moves tags ns (c.guarded g) I J := by
  rintro s names s' ⟨σ, hs, hI⟩ hstep
  obtain ⟨ha, hstep⟩ | ⟨ha, rfl, rfl⟩ := step_guarded_cases hs hg hstep
  · exact h s names s' ⟨σ, hs, hI, ha⟩ hstep
  · exact ⟨rfl, σ, hs, hblocked σ hI ha⟩

/-- Whether a guard lets a command run depends on registers alone. -/
theorem ignores_allows (g : Modifier) (b : Option Bool) :
    Ignores .stack (fun σ => σ.allows g = b) := by
  refine ⟨fun _ _ (hr : false = true) => (nomatch hr), fun {σ τ id key} hσ _ h => ?_⟩
  have hholds : ∀ cond, τ.holds cond = σ.holds cond := by
    intro cond
    cases cond <;> simp only [State.holds, h.1]
  cases g with
  | onlyIf cond => exact (hholds cond).trans hσ
  | exceptIf cond =>
    have hallows : τ.allows (.exceptIf cond) = σ.allows (.exceptIf cond) := by
      simp only [State.allows, hholds]
    exact hallows.trans hσ
  | store kind target => exact hσ

/-! ## Branches -/

section Branches

variable (hI : Ignores .stack I) (hok : ∀ c, c.isUnframed = true → ∀ σ, I σ → ok ns c σ)

include hI hok

/-- Operands are dropped, and the branch is set off. -/
theorem IsJump.triple (h : IsJump t cs) (hJ : ∀ σ, I σ → J (σ.setReg .brDepth (Int32.ofNat t))) :
    Triple code ok n ns cs I J := by
  obtain ⟨k, i⟩ := h
  have hdrop : (Command.remove (.operand i)).staysIn .stack .nothing = true := rfl
  refine .seq (.keeps hI (all_replicate hdrop) fun c hc => hok c ?_) ?_
  · rw [List.eq_of_mem_replicate hc]
    rfl
  · exact .moves (hok _ rfl) (.setScore hJ)

/-- A branch as one command. -/
theorem IsJumpCall.triple (h : IsJumpCall code ns t c) (hnow : ∀ σ, I σ → ok ns c σ)
    (hJ : ∀ σ, I σ → J (σ.setReg .brDepth (Int32.ofNat t))) : Triple code ok n ns [c] I J := by
  cases h with
  | direct => exact .moves hnow (.setScore hJ)
  | fragment hcs hid =>
    cases n with
    | zero => exact fun _ _ => Along.zero
    | succ n =>
      refine .call hnow fun f hf => ?_
      cases hid.symm.trans hf
      exact IsJump.triple hI hok hcs hJ

/-- A branch under a condition. -/
theorem IsJumpCall.triple_guarded (h : IsJumpCall code ns t c) (hg : g.IsCondition)
    (hnow : ∀ σ, I σ → ok ns (c.guarded g) σ)
    (hJ : ∀ σ, I σ → σ.allows g = some true → J (σ.setReg .brDepth (Int32.ofNat t)))
    (hblocked : ∀ σ, I σ → σ.allows g = some false → J σ) :
    Triple code ok n ns [c.guarded g] I J := by
  cases h with
  | direct => exact .moves hnow (.guarded hg (.setScore fun σ hσ => hJ σ hσ.1 hσ.2) hblocked)
  | fragment hcs hid =>
    cases n with
    | zero => exact fun _ _ => Along.zero
    | succ n =>
      refine .callIf hg hnow (fun f hf => ?_) hblocked
      cases hid.symm.trans hf
      exact IsJump.triple (hI.and (ignores_allows g (some true)))
        (fun c hc σ hσ => hok c hc σ hσ.1) hcs fun σ hσ => hJ σ hσ.1 hσ.2

end Branches

/-! ## Conditions -/

/-- The property holds, and the conditions under way are these. -/
def At (V : Option Nbt) (I : State → Prop) (σ : State) : Prop := I σ ∧ σ.conditions = V

theorem At.mono {V : Option Nbt} (h : At V I σ) (hIJ : ∀ σ, I σ → J σ) : At V J σ :=
  ⟨hIJ σ h.1, h.2⟩

theorem ignores_conditions (V : Option Nbt) :
    Ignores .unconditional (fun σ => σ.conditions = V) :=
  ⟨fun _ hσ _ => hσ, fun hσ hk h => (h.2 _ _ (.inr (Ne.symm (of_decide_eq_true hk)))).trans hσ⟩

/-- The top of the operand stack is put aside as a condition. -/
theorem moves_putAside {V : Option Nbt} (hI : ∀ σ v, I σ → I (σ.setCell sharedId "conditions" v)) :
    Moves tags ns (.appendFrom .conditions top) (At V I)
      (fun σ => ∃ v v', (V = some v ∧ Nbt.Pushed v v') ∧ At (some v') I σ) := by
  rintro s names s' ⟨σ, hs, hσ, hV⟩ hstep
  have hpath : Path.conditions.segments = .key "conditions" :: [] := rfl
  have htop : Keyed top := ⟨"stack", [.index (-1)], rfl⟩
  obtain ⟨hnames, slot, v, v', -, hv, happend, hs'⟩ := step_appendFrom_eq_ok hs hpath htop hstep
  exact ⟨hnames, _, hs', v, v', ⟨hV.symm.trans hv, Nbt.pushed_of_append happend⟩, hI σ v' hσ,
    σ.conditions_setCell v'⟩

/-- A condition that was put aside is loaded. -/
theorem moves_loadCondition {v v' : Nbt} (hv : Nbt.Pushed v v')
    (hI : ∀ slot, v'.lookup [.index (-1)] = some slot → ∀ σ, At (some v') I σ →
      J (σ.setReg r slot.measure)) :
    Moves tags ns (.load r (Path.conditions.index (-1))) (At (some v') I) J := by
  obtain ⟨slot, hslot⟩ := hv.there
  refine .load ⟨"conditions", _, rfl⟩ fun σ hσ => ⟨slot, ?_, hI slot hslot σ hσ⟩
  show (σ.cells sharedId "conditions").bind (fun v => v.lookup [.index (-1)]) = some slot
  have hcell : σ.cells sharedId "conditions" = some v' := hσ.2
  rw [hcell]
  exact hslot

/-- A condition that was put aside is dropped. -/
theorem moves_dropCondition {v v' : Nbt} (hv : Nbt.Pushed v v')
    (hI : ∀ σ v, I σ → I (σ.setCell sharedId "conditions" v)) :
    Moves tags ns (.remove (Path.conditions.index (-1))) (At (some v') I) (At (some v) I) := by
  rintro s names s' ⟨σ, hs, hσ, hV⟩ hstep
  have hpath : (Path.conditions.index (-1)).segments = .key "conditions" :: [.index (-1)] := rfl
  obtain ⟨hnames, u, u', hu, hremove, hs'⟩ :=
    step_remove_eq_ok hs hpath (List.cons_ne_nil _ _) hstep
  have huv : u = v' := Option.some.inj (hu.symm.trans hV)
  rw [huv, hv.removed] at hremove
  cases hremove
  exact ⟨hnames, _, hs', hI σ v hσ, σ.conditions_setCell v⟩

end Machine

end WasmPack
