/-
  WasmPack.Proofs.State.Faults

  Which errors a piece of work can end with.  A command ends with a fault of its
  own, never at the limit of a run: that commands are counted is the business of
  the run alone.
-/
import WasmPack.Machine.Run
import WasmPack.Proofs.State.Basic

namespace WasmPack

variable {ε σ α β : Type}

/-! ## Errors of work -/

section

variable {s s' : σ} {e : ε} {x : EStateM ε σ α} {f : α → EStateM ε σ β}

/-- Two pieces of work succeed if the first does, and the second does behind it. -/
theorem work_bind_eq_ok {b : β} :
    (x >>= f) s = .ok b s' ↔ ∃ a s₁, x s = .ok a s₁ ∧ f a s₁ = .ok b s' := by
  show EStateM.bind x f s = _ ↔ _
  unfold EStateM.bind
  cases x s with
  | ok a s₁ =>
    refine ⟨fun h => ⟨a, s₁, rfl, h⟩, ?_⟩
    rintro ⟨_, _, ⟨⟩, h⟩
    exact h
  | error e s₁ => exact ⟨(fun h => nomatch h), fun ⟨_, _, h, _⟩ => nomatch h⟩

/-- Two pieces of work fail if the first does, or the second does behind a success. -/
theorem work_bind_eq_error : (x >>= f) s = .error e s' ↔
    x s = .error e s' ∨ ∃ a s₁, x s = .ok a s₁ ∧ f a s₁ = .error e s' := by
  show EStateM.bind x f s = _ ↔ _
  unfold EStateM.bind
  cases x s with
  | ok a s₁ =>
    refine ⟨fun h => .inr ⟨a, s₁, rfl, h⟩, ?_⟩
    rintro (⟨⟨⟩⟩ | ⟨_, _, ⟨⟩, h⟩)
    exact h
  | error e₁ s₁ =>
    constructor
    · intro h
      cases h
      exact .inl rfl
    · rintro (⟨⟨⟩⟩ | ⟨_, _, ⟨⟩, -⟩)
      rfl

end

/-- Work on one thing after the other fails at the first for which it does. -/
theorem work_forM_eq_error {s s' : σ} {e : ε} {xs : List α} {f : α → EStateM ε σ PUnit} :
    xs.forM f s = .error e s' ↔ ∃ before x after s₁, xs = before ++ x :: after ∧
      before.forM f s = .ok ⟨⟩ s₁ ∧ f x s₁ = .error e s' := by
  induction xs generalizing s with
  | nil =>
    refine ⟨(fun h => nomatch h), ?_⟩
    rintro ⟨before, x, after, -, h, -⟩
    exact absurd h (by simp)
  | cons y xs ih =>
    have hcons : ∀ ys, (y :: ys).forM f = f y >>= fun _ => ys.forM f := fun _ => rfl
    rw [hcons, work_bind_eq_error]
    constructor
    -- Either the first one fails already, or it succeeds and a later one fails.
    · rintro (h | ⟨⟨⟩, s₁, hy, h⟩)
      · exact ⟨[], y, xs, s, rfl, rfl, h⟩
      · obtain ⟨before, x, after, s₂, rfl, hbefore, hx⟩ := ih.1 h
        exact ⟨y :: before, x, after, s₂, rfl, work_bind_eq_ok.2 ⟨⟨⟩, s₁, hy, hbefore⟩, hx⟩
    · rintro ⟨_ | ⟨z, before⟩, x, after, s₂, heq, hbefore, hx⟩
      · cases heq
        cases hbefore
        exact .inl hx
      · cases heq
        obtain ⟨⟨⟩, s₁, hy, hbefore⟩ := work_bind_eq_ok.1 hbefore
        exact .inr ⟨⟨⟩, s₁, hy, ih.2 ⟨before, x, after, s₂, rfl, hbefore, hx⟩⟩

/-- Every error that the work can end with has a property. -/
def Raises (P : ε → Prop) (work : EStateM ε σ α) : Prop :=
  ∀ s e s', work s = .error e s' → P e

namespace Raises

variable {P : ε → Prop}

theorem mono {Q : ε → Prop} {work : EStateM ε σ α} (h : Raises P work) (hPQ : ∀ e, P e → Q e) :
    Raises Q work := fun s e s' hs => hPQ e (h s e s' hs)

theorem pure (a : α) : Raises P (pure a : EStateM ε σ α) := fun _ _ _ h => nomatch h

theorem throw {e : ε} (he : P e) : Raises P (throw e : EStateM ε σ α) := by
  intro s e' s' h
  cases h
  exact he

theorem bind {x : EStateM ε σ α} {f : α → EStateM ε σ β} (hx : Raises P x)
    (hf : ∀ a, Raises P (f a)) : Raises P (x >>= f) := by
  intro s e s' h
  obtain h | ⟨a, s₁, -, h⟩ := work_bind_eq_error.1 h
  · exact hx s e s' h
  · exact hf a s₁ e s' h

theorem forM {xs : List α} {f : α → EStateM ε σ PUnit} (h : ∀ x ∈ xs, Raises P (f x)) :
    Raises P (xs.forM f) := by
  induction xs with
  | nil => exact .pure _
  | cons x xs ih =>
    exact .bind (h x List.mem_cons_self) fun _ => ih fun y hy => h y (List.mem_cons_of_mem x hy)

end Raises

namespace Machine

/-! ## Faults of commands -/

/-- The fault is that a run has come to its limit. -/
def Fault.isLimit : Fault → Bool
  | .gasExhausted _ => true
  | _ => false

/-- The work does not end at a limit. -/
abbrev LimitFree (work : Exec α) : Prop := Raises (fun e : Fault => e.isLimit = false) work

variable {s : Store} {e : Fault} {ns : String} {path : Path} {tags : TagTable}

theorem Store.limitFree_read {r : Register} (h : s.read r = .error e) : e.isLimit = false := by
  unfold Store.read at h
  split at h
  · cases h
  · cases h
    rfl

theorem limitFree_function {code : Code} {name : String} (h : code.function name = .error e) :
    e.isLimit = false := by
  unfold Code.function at h
  split at h
  · cases h
  · cases h
    rfl

theorem limitFree_holds {cond : Condition} (h : holds s cond = .error e) : e.isLimit = false := by
  cases cond with
  | isIn r range =>
    obtain h | ⟨n, -, h⟩ := except_bind_eq_error.1 h
    · exact s.limitFree_read h
    · cases h
  | compare lhs op rhs =>
    obtain h | ⟨n, -, h⟩ := except_bind_eq_error.1 h
    · exact s.limitFree_read h
    obtain h | ⟨k, -, h⟩ := except_bind_eq_error.1 h
    · exact s.limitFree_read h
    · cases h

theorem limitFree_gate {ms : List Modifier} (h : gate s ms = .error e) : e.isLimit = false := by
  induction ms with
  | nil => cases h
  | cons m ms ih =>
    cases m with
    | onlyIf cond =>
      obtain h | ⟨b, -, h⟩ := except_bind_eq_error.1 h
      · exact limitFree_holds h
      cases b with
      | true => exact ih h
      | false => cases h
    | exceptIf cond =>
      obtain h | ⟨b, -, h⟩ := except_bind_eq_error.1 h
      · exact limitFree_holds h
      cases b with
      | true => cases h
      | false => exact ih h
    | store kind target =>
      obtain h | ⟨⟨pending, passed⟩, -, h⟩ := except_bind_eq_error.1 h
      · exact ih h
      · cases h

theorem limitFree_functionsOf {code : Code} {names : List String}
    (h : code.functionsOf names = .error e) : e.isLimit = false := by
  induction names with
  | nil => cases h
  | cons name names ih =>
    obtain h | ⟨rest, -, h⟩ := except_bind_eq_error.1 h
    · exact ih h
    obtain h | ⟨f, -, h⟩ := except_bind_eq_error.1 h
    · exact limitFree_function h
    · cases h

namespace LimitFree

theorem inspect {f : Store → Except Fault α} (h : ∀ s e, f s = .error e → e.isLimit = false) :
    LimitFree (inspect f) := by
  intro s e s' hs
  unfold Machine.inspect at hs
  split at hs
  · cases hs
  · rename_i hf
    cases hs
    exact h s _ hf

theorem read (r : Register) : LimitFree (Machine.inspect (·.read r)) :=
  inspect fun _ _ => Store.limitFree_read

theorem setScore (r : Register) (n : Int32) : LimitFree (setScore r n) := fun _ _ _ h => nomatch h

theorem changeAt {f : List Segment → Nbt → Option β × Nbt} : LimitFree (changeAt ns path f) := by
  intro s e s' h
  unfold Machine.changeAt at h
  split at h
  · cases h
  · cases h
    rfl

theorem require : LimitFree (require ns path) := by
  refine inspect fun s e h => ?_
  split at h
  · cases h
  · cases h
    rfl

theorem append (value : Nbt) : LimitFree (append ns path value) := by
  refine .bind changeAt fun pushed => ?_
  cases pushed with
  | true => exact .pure _
  | false => exact .throw rfl

theorem operate (target : Register) (op : ScoreOp) (source : Register) :
    LimitFree (operate target op source) := by
  refine .bind (read source) fun rhs => .bind (inspect fun _ _ h => nomatch h) fun lhs => ?_
  split
  · exact .bind (setScore _ _) fun _ => .bind (setScore _ _) fun _ => .pure _
  · exact .bind (setScore _ _) fun _ => .pure _

theorem perform (c : Command) : LimitFree (perform ns c) := by
  cases c with
  | setScore r n => exact .bind (setScore _ _) fun _ => .pure _
  | addScore r delta =>
    exact .bind (inspect fun _ _ h => nomatch h) fun _ => .bind (setScore _ _) fun _ => .pure _
  | operation target op source => exact operate target op source
  | getScore r => exact .bind (read r) fun _ => .pure _
  | append path value => exact .bind (append _) fun _ => .pure _
  | appendFrom path source => exact .bind require fun _ => .bind (append _) fun _ => .pure _
  | setData path value => exact .bind changeAt fun _ => .pure _
  | setFrom path source => exact .bind require fun _ => .bind changeAt fun _ => .pure _
  | remove path => exact .bind changeAt fun _ => .pure _
  | getData path =>
    refine inspect fun s e h => ?_
    split at h <;> cases h
  | addObjective => exact .pure _
  | call symbol => exact .throw rfl
  | callTag tag => exact .throw rfl
  | test ms => exact .throw rfl
  | execute ms run => exact .throw rfl

theorem storeNumber (n : Int32) (target : StoreTarget) : LimitFree (storeNumber ns n target) := by
  cases target with
  | score r => exact setScore r n
  | storage path tag => exact .bind changeAt fun _ => .pure _

theorem deliver (report : Report) (pending : Pending) : LimitFree (deliver ns report pending) :=
  .forM fun p _ => storeNumber _ p.2

theorem finish (pending : Pending) (last : Option Command) :
    LimitFree (finish tags ns pending last) := by
  unfold Machine.finish
  split
  · exact .bind (deliver _ _) fun _ => .pure _
  · split
    · exact .pure _
    · exact .throw rfl
  · split
    · refine inspect fun s e h => ?_
      unfold tagMembers at h
      split at h <;> cases h
      rfl
    · exact .throw rfl
  · exact .bind (perform _) fun _ => .bind (deliver _ _) fun _ => .pure _

/-- A command never ends a run at the limit. -/
theorem step (c : Command) : LimitFree (step tags ns c) := by
  refine .bind (inspect fun s e => limitFree_gate) fun ⟨pending, passed⟩ => ?_
  cases passed with
  | true => exact finish _ _
  | false =>
    cases (chain c).2 with
    | none => exact .bind (deliver _ _) fun _ => .pure _
    | some d => exact .pure _

end LimitFree

end Machine

end WasmPack
