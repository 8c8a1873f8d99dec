/-
  WasmPack.Proofs.Operands.Above

  The operand stack as commands see it: the values of the callers, and above them
  those of the function under way.  A command that stays among the topmost values
  leaves the ones below alone, and leaves as many values as there were.
-/
import WasmPack.Proofs.Execution.Frames

namespace WasmPack

/-! ## Commands among the topmost operands -/

/-- Everything but `#br_depth`, the operand stack and the conditions under way. -/
def Writes.apart : Writes :=
  ⟨fun r => decide (r ≠ .brDepth), fun k => decide (k ≠ "stack" ∧ k ≠ "conditions")⟩

/-- Everything but `#br_depth` and the conditions under way. -/
def Writes.settled : Writes :=
  ⟨fun r => decide (r ≠ .brDepth), fun k => decide (k ≠ "conditions")⟩

/-- Everything but the operand stack. -/
def Writes.unstacked : Writes := ⟨fun _ => true, fun k => decide (k ≠ "stack")⟩

/-- What code for operands calls without passing operands: routines, and the parts of memories that
    hand over what they work on in registers. -/
def Symbol.isApart : Symbol → Bool
  | .memory _ op => decide (op ≠ .size ∧ op ≠ .grow)
  | .swapOutAll => true
  | .tree _ _ _ => true
  | .routine r => decide (r ≠ .load)
  | _ => false

/-- Calls without operands. -/
def Calls.apart : Calls := ⟨Symbol.isApart, fun t => decide (t = .swapOut)⟩

/-- The path leads to one of the topmost operands, or to something apart from the stack. -/
def Path.isAbove (h : Nat) (p : Path) : Bool :=
  p.isWithin .apart ||
    match p.segments with
    | [_, .index i] => decide (p = .operand i ∧ -(h : Int) ≤ i.toInt ∧ i.toInt < 0)
    | _ => false

/-- The modifier reads and writes no operands but the topmost ones. -/
def Modifier.isAbove (h : Nat) : Modifier → Bool
  | .store _ (.score r) => Writes.apart.register r
  | .store _ (.storage p _) => p.isAbove h
  | _ => true

/-- The command reads and writes no operands but the topmost ones, and leaves their number as it
    is. -/
def Command.isAbove (h : Nat) : Command → Bool
  | .setScore r _ | .addScore r _ => Writes.apart.register r
  | .operation r op _ => Writes.apart.register r && decide (op ≠ .swap)
  | .append p _ | .remove p => p.isWithin .apart
  | .appendFrom p q => p.isWithin .apart && q.isAbove h
  | .setData p _ | .getData p => p.isAbove h
  | .setFrom p q => p.isAbove h && q.isAbove h
  | .test ms => ms.all (·.isAbove h)
  | .execute ms run => ms.all (·.isAbove h) && run.isAbove h
  | .call symbol => symbol.isApart
  | .callTag t => decide (t = .swapOut)
  | .getScore _ | .addObjective => true

section IsAbove

variable {h k : Nat} {p : Path} {c : Command} {g : Modifier} {i : Int32}

theorem Path.isAbove_iff : p.isAbove h = true ↔
    p.isWithin .apart = true ∨ ∃ i, p = .operand i ∧ -(h : Int) ≤ i.toInt ∧ i.toInt < 0 := by
  rw [isAbove, Bool.or_eq_true_iff]
  refine or_congr Iff.rfl ⟨fun hp => ?_, ?_⟩
  · split at hp
    · exact ⟨_, of_decide_eq_true hp⟩
    · cases hp
  · rintro ⟨i, rfl, hi⟩
    exact decide_eq_true ⟨rfl, hi⟩

theorem Path.isAbove_operand (hlow : -(h : Int) ≤ i.toInt) (hneg : i.toInt < 0) :
    (Path.operand i).isAbove h = true := isAbove_iff.2 (.inr ⟨i, rfl, hlow, hneg⟩)

theorem Path.isAbove_mono (hk : k ≤ h) (hp : p.isAbove k = true) : p.isAbove h = true := by
  rw [isAbove_iff] at hp ⊢
  exact hp.imp_right fun ⟨i, hi, hlow, hneg⟩ => ⟨i, hi, by omega, hneg⟩

theorem Modifier.isAbove_mono (hk : k ≤ h) (hg : g.isAbove k = true) : g.isAbove h = true := by
  cases g with
  | store kind target =>
    cases target with
    | score r => exact hg
    | storage p tag => exact Path.isAbove_mono hk hg
  | _ => rfl

/-- Where more operands are there, a command may do what it may with fewer. -/
theorem Command.isAbove_mono (hk : k ≤ h) (hc : c.isAbove k = true) : c.isAbove h = true := by
  have hall : ∀ ms : List Modifier, ms.all (·.isAbove k) = true → ms.all (·.isAbove h) = true :=
    fun ms hms => List.all_eq_true.2 fun m hm =>
      Modifier.isAbove_mono hk (List.all_eq_true.1 hms m hm)
  induction c with
  | appendFrom p q =>
    rw [isAbove, Bool.and_eq_true_iff] at hc ⊢
    exact ⟨hc.1, Path.isAbove_mono hk hc.2⟩
  | setData p v => exact Path.isAbove_mono hk hc
  | getData p => exact Path.isAbove_mono hk hc
  | setFrom p q =>
    rw [isAbove, Bool.and_eq_true_iff] at hc ⊢
    exact ⟨Path.isAbove_mono hk hc.1, Path.isAbove_mono hk hc.2⟩
  | test ms => exact hall ms hc
  | execute ms run ih =>
    rw [isAbove, Bool.and_eq_true_iff] at hc ⊢
    exact ⟨hall ms hc.1, ih hc.2⟩
  | _ => exact hc

/-- The paths that a command mentions lie where it reads and writes. -/
theorem Command.paths_of_isAbove (hc : c.isAbove h = true) : ∀ p ∈ c.paths, p.isAbove h = true := by
  have hapart : ∀ {p : Path}, p.isWithin .apart = true → p.isAbove h = true := fun hp =>
    Path.isAbove_iff.2 (.inl hp)
  have hmodifiers : ∀ {ms : List Modifier}, ms.all (·.isAbove h) = true →
      ∀ p ∈ ms.flatMap Modifier.paths, p.isAbove h = true := by
    intro ms hms p hp
    obtain ⟨m, hm, hp⟩ := List.mem_flatMap.1 hp
    have habove := List.all_eq_true.1 hms m hm
    cases m with
    | store kind target =>
      cases target with
      | score r => cases hp
      | storage q tag => exact List.mem_singleton.1 hp ▸ habove
    | _ => cases hp
  induction c with
  | append p v => exact List.forall_mem_singleton.2 (hapart hc)
  | remove p => exact List.forall_mem_singleton.2 (hapart hc)
  | appendFrom p q =>
    have hc := Bool.and_eq_true_iff.1 hc
    exact List.forall_mem_cons.2 ⟨hapart hc.1, List.forall_mem_singleton.2 hc.2⟩
  | setData p v => exact List.forall_mem_singleton.2 hc
  | getData p => exact List.forall_mem_singleton.2 hc
  | setFrom p q =>
    have hc := Bool.and_eq_true_iff.1 hc
    exact List.forall_mem_cons.2 ⟨hc.1, List.forall_mem_singleton.2 hc.2⟩
  | test ms => exact hmodifiers hc
  | execute ms run ih =>
    have hc := Bool.and_eq_true_iff.1 hc
    exact List.forall_mem_append.2 ⟨hmodifiers hc.1, ih hc.2⟩
  | _ => exact fun p hp => nomatch hp

/-- What a command calls that stays among the topmost operands. -/
theorem Command.callsWithin_of_isAbove (hc : c.isAbove h = true) :
    c.callsWithin .apart = true := by
  induction c with
  | call symbol => exact hc
  | callTag tag => exact hc
  | execute ms run ih => exact ih (Bool.and_eq_true_iff.1 hc).2
  | _ => rfl

end IsAbove

namespace Nbt

variable {below own : List Nbt} {i : Int32}

/-- The topmost values are not among those below. -/
theorem position?_above (hlow : -(own.length : Int) ≤ i.toInt) (hneg : i.toInt < 0) :
    ∃ j < own.length, position? i (below ++ own).length = some (below.length + j) := by
  obtain ⟨k, hk⟩ := Int.eq_ofNat_of_zero_le (a := -i.toInt - 1) (by omega)
  refine ⟨own.length - 1 - k, by omega, ?_⟩
  rw [position?_of_neg (j := k) (by omega) (by rw [List.length_append]; omega),
    List.length_append]
  congr 1
  omega

end Nbt

namespace Machine

open Compile Nbt

variable {code : Code} {tags : TagTable} {ns : String} {below own : List Nbt} {h k n : Nat}
  {σ : State} {s s' : Store} {c : Command} {p q : Path} {g : Modifier} {i : Int32} {value : Nbt}
  {names : List String} {R : State → Prop} {cs : List Command}

/-- The operand stack holds values of the callers, and above them at least a number of others. -/
def Stacked (below : List Nbt) (h : Nat) (σ : State) : Prop :=
  ∃ own : List Nbt, h ≤ own.length ∧ σ.operands = some (entries (below ++ own))

theorem Stacked.mono (hσ : Stacked below h σ) (hk : k ≤ h) : Stacked below k σ := by
  obtain ⟨own, hlen, hstack⟩ := hσ
  exact ⟨own, Nat.le_trans hk hlen, hstack⟩

/-- What is above the values of a callee's callers is above those of its caller's. -/
theorem Stacked.caller (hσ : Stacked (below ++ own) h σ) : Stacked below (own.length + h) σ := by
  obtain ⟨inner, hlen, hstack⟩ := hσ
  exact ⟨own ++ inner, by rw [List.length_append]; omega, by rw [hstack, List.append_assoc]⟩

theorem Stacked.setStack {values : List Nbt} (hlen : h ≤ values.length) :
    Stacked below h (σ.setCell sharedId "stack" (entries (below ++ values))) :=
  ⟨values, hlen, by rw [State.operands, State.cells_setCell, if_pos ⟨rfl, rfl⟩]⟩

theorem ignores_stacked (below : List Nbt) (h : Nat) : Ignores .unstacked (Stacked below h) := by
  refine ⟨fun _ hσ _ => hσ, fun {σ τ id key} ⟨own, hlen, hstack⟩ hk hagree => ⟨own, hlen, ?_⟩⟩
  exact (hagree.2 _ _ (.inr (Ne.symm (of_decide_eq_true hk)))).trans hstack

theorem apart_among_unstacked : Writes.apart.Among .unstacked :=
  ⟨fun _ _ => rfl, fun _ hk => decide_eq_true (of_decide_eq_true hk).1⟩

theorem apart_among_settled : Writes.apart.Among .settled :=
  ⟨fun _ hr => hr, fun _ hk => decide_eq_true (of_decide_eq_true hk).2⟩

theorem stack_among_settled : Writes.stack.Among .settled :=
  ⟨fun _ (hr : false = true) => (nomatch hr), fun k hk => by rw [of_decide_eq_true hk]; decide⟩

theorem ignores_stacked_and (hR : Ignores .settled R) :
    Ignores .apart (fun σ => Stacked below h σ ∧ R σ) :=
  ((ignores_stacked below h).mono apart_among_unstacked).and (hR.mono apart_among_settled)

/-! ## What the commands maintain -/

/-- Writing one of the topmost operands. -/
theorem maintains_write_operand (hR : Ignores .settled R) (hlow : -(h : Int) ≤ i.toInt)
    (hneg : i.toInt < 0) (value : Nbt) :
    Maintains (fun σ => Stacked below h σ ∧ R σ) (write ns (.operand i) value) := by
  rintro σ s ⟨⟨own, hlen, hstack⟩, hσ⟩ hs
  obtain ⟨j, hj, hp⟩ : ∃ j < own.length,
      position? i (below ++ own).length = some (below.length + j) := position?_above (by omega) hneg
  have hpath : (Path.operand i).segments = .key "stack" :: [.index i] := rfl
  obtain ⟨b, hwrite⟩ := write_listOf (f := id) (y := value) hp
  obtain ⟨s', hrun, hs'⟩ := hs.write_deep hpath (List.cons_ne_nil _ _) hstack hwrite
  have hset : (below ++ own).set (below.length + j) value = below ++ own.set j value := by
    rw [List.set_append_right _ _ (Nat.le_add_right _ _), Nat.add_sub_cancel_left]
  rw [hset] at hs'
  have hdone : write ns (.operand i) value s = .ok b s' := hrun
  have hleft : (after (write ns (.operand i) value) s).Models
      (σ.setCell sharedId "stack" (entries (below ++ own.set j value))) := by
    rw [after, hdone]
    exact hs'
  refine ⟨_, ⟨.setStack ?_, hR.setCell rfl hσ⟩, hleft⟩
  rwa [List.length_set]

theorem maintains_write (hR : Ignores .settled R) (hp : p.isAbove k = true) (hk : k ≤ h)
    (value : Nbt) : Maintains (fun σ => Stacked below h σ ∧ R σ) (write ns p value) := by
  obtain hp | ⟨i, rfl, hlow, hneg⟩ := Path.isAbove_iff.1 (Path.isAbove_mono hk hp)
  · exact .write (ignores_stacked_and hR) hp value
  · exact maintains_write_operand hR hlow hneg value

theorem chain_isAbove (hc : c.isAbove h = true) :
    (∀ m ∈ (chain c).1, m.isAbove h = true) ∧ ∀ d, (chain c).2 = some d → d.isAbove h = true := by
  induction c with
  | test ms => exact ⟨List.all_eq_true.1 hc, fun _ hd => (nomatch hd)⟩
  | execute ms run ih =>
    have hc := Bool.and_eq_true_iff.1 hc
    refine ⟨fun m hm => ?_, (ih hc.2).2⟩
    obtain hm | hm := List.mem_append.1 hm
    · exact List.all_eq_true.1 hc.1 m hm
    · exact (ih hc.2).1 m hm
  | _ =>
    refine ⟨fun _ hm => (nomatch hm), fun d hd => ?_⟩
    cases hd
    exact hc

/-- Commands among the topmost operands maintain what is below, and how many are above. -/
theorem maintains_isAbove (hR : Ignores .settled R) (hc : c.isAbove k = true) (hk : k ≤ h) :
    Maintains (fun σ => Stacked below h σ ∧ R σ) (step tags ns c) := by
  obtain ⟨hms, hlast⟩ := chain_isAbove hc
  have hI : Ignores .apart (fun σ => Stacked below h σ ∧ R σ) := ignores_stacked_and hR
  refine .of_chain (fun kind target hm n => ?_) fun d hd => ?_
  · have htarget := hms _ hm
    cases target with
    | score r => exact .setScore hI htarget n
    | storage p tag => exact .bind (maintains_write hR htarget hk _) fun _ => .pure _
  · have habove := hlast d hd
    cases d with
    | setScore r m => exact .perform hI habove
    | addScore r m => exact .perform hI habove
    | operation r op q => exact .perform hI habove
    | append p v => exact .perform hI habove
    | remove p => exact .perform hI habove
    | appendFrom p q => exact .perform (c := .appendFrom p q) hI (Bool.and_eq_true_iff.1 habove).1
    | getData p => exact .inspect _
    | setData p v => exact .bind (maintains_write hR habove hk v) fun _ => .pure _
    | setFrom p q =>
      have habove := Bool.and_eq_true_iff.1 habove
      exact .bind (.inspect _) fun v => .bind (maintains_write hR habove.1 hk v) fun _ => .pure _
    | test ms => exact .throw _
    | execute ms run => exact .throw _
    | _ => exact .perform hI rfl

/-! ## Commands that push and drop -/

theorem Stacked.append {v v' : Nbt} (hσ : Stacked below h σ)
    (hv : σ.cells sharedId "stack" = some v) (happend : Nbt.append [] value v = (some true, v')) :
    Stacked below (h + 1) (σ.setCell sharedId "stack" v') := by
  obtain ⟨own, hlen, hstack⟩ := hσ
  cases hv.symm.trans hstack
  have hpush : Nbt.append [] value (entries (below ++ own)) =
    (some true, entries (below ++ own ++ [value])) := append_listOf (f := id) (x := value)
  obtain rfl := (Prod.mk.inj (happend.symm.trans hpush)).2
  rw [List.append_assoc]
  exact .setStack (by rw [List.length_append]; exact Nat.add_le_add_right hlen 1)

section Moves

variable (hR : Ignores .stack R)

include hR

theorem moves_push : Moves tags ns (.append .stack value) (fun σ => Stacked below h σ ∧ R σ)
    (fun σ => Stacked below (h + 1) σ ∧ R σ) := by
  rintro s names s' ⟨σ, hs, hstacked, hσ⟩ hstep
  have hpath : Path.stack.segments = .key "stack" :: [] := rfl
  obtain ⟨rfl, v, v', hv, happend, hs'⟩ := step_append_eq_ok hs hpath hstep
  exact ⟨rfl, _, hs', hstacked.append hv happend, hR.setCell rfl hσ⟩

theorem moves_pushFrom (hp : Keyed p) : Moves tags ns (.appendFrom .stack p)
    (fun σ => Stacked below h σ ∧ R σ) (fun σ => Stacked below (h + 1) σ ∧ R σ) := by
  rintro s names s' ⟨σ, hs, hstacked, hσ⟩ hstep
  have hpath : Path.stack.segments = .key "stack" :: [] := rfl
  obtain ⟨rfl, slot, v, v', -, hv, happend, hs'⟩ := step_appendFrom_eq_ok hs hpath hp hstep
  exact ⟨rfl, _, hs', hstacked.append hv happend, hR.setCell rfl hσ⟩

theorem moves_drop (hlow : -((h + 1 : Nat) : Int) ≤ i.toInt) (hneg : i.toInt < 0) :
    Moves tags ns (.remove (.operand i)) (fun σ => Stacked below (h + 1) σ ∧ R σ)
      (fun σ => Stacked below h σ ∧ R σ) := by
  rintro s names s' ⟨σ, hs, ⟨own, hlen, hstack⟩, hσ⟩ hstep
  have hpath : (Path.operand i).segments = .key "stack" :: [.index i] := rfl
  obtain ⟨rfl, v, v', hv, hremove, hs'⟩ :=
    step_remove_eq_ok hs hpath (List.cons_ne_nil _ _) hstep
  cases hv.symm.trans hstack
  obtain ⟨j, hj, hp⟩ : ∃ j < own.length,
      position? i (below ++ own).length = some (below.length + j) := position?_above (by omega) hneg
  obtain rfl := (Prod.mk.inj (hremove.symm.trans (remove_listOf (f := id) hp))).2
  refine ⟨rfl, _, hs', ?_, hR.setCell rfl hσ⟩
  rw [List.eraseIdx_append_of_length_le (Nat.le_add_right _ _), Nat.add_sub_cancel_left]
  exact .setStack (by rw [List.length_eraseIdx_of_lt hj]; omega)

end Moves

/-! ## What is safe for the callers -/

/-- The path leads to an operand that is above those of the callers. -/
def IsOwnOperand (below : List Nbt) (σ : State) (p : Path) : Prop :=
  ∃ i own j, p = .operand i ∧ σ.operands = some (entries (below ++ own)) ∧
    position? i (below ++ own).length = some (below.length + j)

/-- The command puts a value on top of the operand stack. -/
def Pushes (c : Command) : Prop :=
  (∃ v, (chain c).2 = some (.append .stack v)) ∨
    ∃ q, q ≠ .stack ∧ (chain c).2 = some (.appendFrom .stack q)

/-- The command leaves the operands of the callers alone: of the operand stack it reads and changes
    only what is above them, if its conditions hold at all, and they are still there behind it. -/
structure StackSafe (below : List Nbt) (ns : String) (c : Command) (σ : State) : Prop where
  own : Stacked below 0 σ
  above : (∀ g ∈ (chain c).1, g.IsCondition → σ.allows g = some true) → ∀ p ∈ c.paths,
    p.isWithin .stack = true → p = .stack ∧ Pushes c ∨ IsOwnOperand below σ p
  lower : ∀ {tags s names s'}, s.Models σ → step tags ns c s = .ok names s' →
    Holds (Stacked below 0) s'

theorem IsOwnOperand.caller (hp : IsOwnOperand (below ++ own) σ p) : IsOwnOperand below σ p := by
  obtain ⟨i, inner, j, hi, hstack, hj⟩ := hp
  refine ⟨i, own ++ inner, own.length + j, hi, by rw [hstack, List.append_assoc], ?_⟩
  rw [← List.append_assoc, hj, List.length_append, Nat.add_assoc]

theorem isOwnOperand (hσ : Stacked below h σ) (hlow : -(h : Int) ≤ i.toInt) (hneg : i.toInt < 0) :
    IsOwnOperand below σ (.operand i) := by
  obtain ⟨own, hlen, hstack⟩ := hσ
  obtain ⟨j, -, hj⟩ : ∃ j < own.length,
      position? i (below ++ own).length = some (below.length + j) := position?_above (by omega) hneg
  exact ⟨i, own, j, rfl, hstack, hj⟩

/-- Of the paths of commands, those within the stack are operands. -/
theorem isOwnOperand_of_isAbove (hσ : Stacked below h σ) (hp : p.isAbove h = true)
    (hstack : p.isWithin .stack = true) : IsOwnOperand below σ p := by
  obtain hp | ⟨i, rfl, hlow, hneg⟩ := Path.isAbove_iff.1 hp
  · unfold Path.isWithin at hp hstack
    split at hstack
    · rename_i hsegments
      rw [hsegments] at hp
      exact absurd (of_decide_eq_true hstack) (of_decide_eq_true hp).1
    · cases hstack
  · exact isOwnOperand hσ hlow hneg

namespace StackSafe

/-- What is safe for the callers of a callee is safe for its caller's. -/
theorem caller (hc : StackSafe (below ++ own) ns c σ) : StackSafe below ns c σ where
  own := (hc.own.caller).mono (Nat.zero_le _)
  above hg p hp hstack := (hc.above hg p hp hstack).imp_right .caller
  lower hs hstep := (hc.lower hs hstep).mono fun _ hτ => hτ.caller.mono (Nat.zero_le _)

theorem of_isAbove (hσ : Stacked below h σ) (hc : c.isAbove h = true) : StackSafe below ns c σ where
  own := hσ.mono (Nat.zero_le _)
  above _ p hp hstack :=
    .inr (isOwnOperand_of_isAbove hσ (Command.paths_of_isAbove hc p hp) hstack)
  lower hs hstep :=
    ((maintains_isAbove (R := fun _ => True) ⟨fun _ _ _ => trivial, fun _ _ _ => trivial⟩ hc
      (Nat.le_refl h)).holds ⟨σ, hs, hσ, trivial⟩ hstep).mono fun _ hτ => hτ.1.mono (Nat.zero_le _)

/-- Commands that write nothing of the stack, and of it read only operands above those of the
    callers. -/
theorem of_isWithin (hσ : Stacked below h σ) (hc : c.isWithin .unstacked = true)
    (hpaths : ∀ p ∈ c.paths, p.isWithin .stack = true → IsOwnOperand below σ p) :
    StackSafe below ns c σ where
  own := hσ.mono (Nat.zero_le _)
  above _ p hp hstack := .inr (hpaths p hp hstack)
  lower hs hstep :=
    holds_within hc (ignores_stacked below 0) ⟨σ, hs, hσ.mono (Nat.zero_le _)⟩ hstep

/-- Commands that do not look at the stack, whatever they call. -/
theorem of_staysIn {C : Calls} (hσ : Stacked below h σ) (hc : c.staysIn .unstacked C = true) :
    StackSafe below ns c σ := by
  refine of_isWithin hσ (Command.isWithin_of_staysIn hc) fun p hp hstack => ?_
  have hwithin := Command.paths_of_staysIn hc p hp
  unfold Path.isWithin at hwithin hstack
  split at hstack
  · rename_i hsegments
    rw [hsegments] at hwithin
    exact absurd (of_decide_eq_true hstack) (of_decide_eq_true hwithin)
  · cases hstack

theorem call (hσ : Stacked below h σ) (symbol : Symbol) : StackSafe below ns (.call symbol) σ :=
  of_staysIn (C := ⟨fun _ => true, fun _ => true⟩) hσ rfl

theorem of_moves (hσ : Stacked below h σ)
    (habove : ∀ p ∈ c.paths, p.isWithin .stack = true →
      p = .stack ∧ Pushes c ∨ IsOwnOperand below σ p)
    (hc : ∀ tags, Moves tags ns c (fun σ => Stacked below h σ ∧ True)
      (fun σ => Stacked below k σ ∧ True)) : StackSafe below ns c σ where
  own := hσ.mono (Nat.zero_le _)
  above _ := habove
  lower hs hstep := ((hc _ _ _ _ ⟨σ, hs, hσ, trivial⟩ hstep).2).mono fun _ hτ =>
    hτ.1.mono (Nat.zero_le _)

theorem push (hσ : Stacked below h σ) : StackSafe below ns (.append .stack value) σ :=
  of_moves hσ (List.forall_mem_singleton.2 fun _ => .inl ⟨rfl, .inl ⟨value, rfl⟩⟩) fun _ =>
    moves_push ⟨fun _ _ _ => trivial, fun _ _ _ => trivial⟩

theorem pushFrom (hσ : Stacked below h σ) (hp : Keyed p) (habove : p.isAbove h = true) :
    StackSafe below ns (.appendFrom .stack p) σ := by
  have hne : p ≠ .stack := by
    rintro rfl
    cases habove
  refine of_moves hσ (List.forall_mem_cons.2 ⟨fun _ => .inl ⟨rfl, .inr ⟨p, hne, rfl⟩⟩,
    List.forall_mem_singleton.2 fun hstack => .inr (isOwnOperand_of_isAbove hσ habove hstack)⟩)
    fun _ => moves_pushFrom ⟨fun _ _ _ => trivial, fun _ _ _ => trivial⟩ hp

theorem drop (hσ : Stacked below (h + 1) σ) (hlow : -((h + 1 : Nat) : Int) ≤ i.toInt)
    (hneg : i.toInt < 0) : StackSafe below ns (.remove (.operand i)) σ :=
  of_moves hσ (List.forall_mem_singleton.2 fun _ => .inr (isOwnOperand hσ hlow hneg)) fun _ =>
    moves_drop ⟨fun _ _ _ => trivial, fun _ _ _ => trivial⟩ hlow hneg

/-- A command under a condition is safe if it is where the condition holds. -/
theorem guarded (hg : g.IsCondition) (hσ : Stacked below h σ)
    (hc : σ.allows g = some true → StackSafe below ns c σ) :
    StackSafe below ns (c.guarded g) σ where
  own := hσ.mono (Nat.zero_le _)
  above hall p hp hstack := by
    have hpaths : p ∈ c.paths := by
      refine (Command.mem_paths_guarded.1 hp).resolve_left fun hp => ?_
      cases g with
      | store kind target => exact hg kind target rfl
      | _ => cases hp
    have hchain := chain_guarded c g
    rw [hchain] at hall
    have hsafe := hc (hall g List.mem_cons_self hg)
    have hconditions := fun g' hg' => hall g' (List.mem_cons_of_mem g hg')
    refine (hsafe.above hconditions p hpaths hstack).imp_left
      fun ⟨hp, hpush⟩ => ⟨hp, ?_⟩
    unfold Pushes
    rw [hchain]
    exact hpush
  lower hs hstep := by
    obtain ⟨ha, hstep⟩ | ⟨-, -, rfl⟩ := step_guarded_cases hs hg hstep
    · exact (hc ha).lower hs hstep
    · exact ⟨σ, hs, hσ.mono (Nat.zero_le _)⟩

end StackSafe

end Machine

end WasmPack
