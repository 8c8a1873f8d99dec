/-
  WasmPack.Proofs.State.Basic

  The state of a machine as a whole run sees it: which score a register has, and
  which value lies under which key of which storage.  How scores and storages
  are kept is forgotten, so two stores that differ only in that are the same
  state.
-/
import WasmPack.Machine.Store

namespace WasmPack

/-- A success of a sequence of two steps is a success of each. -/
theorem except_bind_eq_ok {α β ε : Type} {x : Except ε α} {f : α → Except ε β} {b : β} :
    (x >>= f) = .ok b ↔ ∃ a, x = .ok a ∧ f a = .ok b := by
  cases x with
  | error e => simp [Bind.bind, Except.bind]
  | ok a => simp [Bind.bind, Except.bind]

/-- A sequence of two steps ends with an error of the first, or of the second behind a success. -/
theorem except_bind_eq_error {α β ε : Type} {x : Except ε α} {f : α → Except ε β} {e : ε} :
    (x >>= f) = .error e ↔ x = .error e ∨ ∃ a, x = .ok a ∧ f a = .error e := by
  cases x with
  | error e' => simp [Bind.bind, Except.bind]
  | ok a => simp [Bind.bind, Except.bind]

theorem except_discard_eq_ok {α ε : Type} {x : Except ε α} {u : Unit} :
    discard x = .ok u ↔ ∃ a, x = .ok a := by
  cases x with
  | error e => exact ⟨(fun h => nomatch h), fun ⟨_, h⟩ => nomatch h⟩
  | ok a => exact ⟨fun _ => ⟨a, rfl⟩, fun _ => rfl⟩

/-- What is discarded has to succeed all the same. -/
theorem except_discard_bind_eq_ok {α β ε : Type} {x : Except ε α} {f : Unit → Except ε β} {b : β} :
    (discard x >>= f) = .ok b ↔ (∃ a, x = .ok a) ∧ f () = .ok b := by
  cases x with
  | error e => exact ⟨(fun h => nomatch h), fun ⟨⟨_, h⟩, _⟩ => nomatch h⟩
  | ok a => exact ⟨fun h => ⟨⟨a, rfl⟩, h⟩, fun h => h.2⟩

/-! ## Fields -/

namespace Fields

variable {α : Type} {β : Type} {j k : String} {v : α} {fields : Fields α}

theorem get?_cons {e : String × α} :
    get? k (e :: fields) = if e.1 = k then some e.2 else get? k fields :=
  rfl

theorem place_cons {e : String × α} :
    place k v (e :: fields) = if k < e.1 then (k, v) :: e :: fields else e :: place k v fields :=
  rfl

theorem modify_cons {e : String × α} {f : α → Option β × α} : modify k f (e :: fields) =
    if e.1 = k then ((f e.2).1, (e.1, (f e.2).2) :: fields)
      else ((modify k f fields).1, e :: (modify k f fields).2) :=
  rfl

theorem modify_of_some {f : α → Option β × α} (h : get? k fields = some v) :
    (modify k f fields).1 = (f v).1 := by
  induction fields with
  | nil => cases h
  | cons e fields ih =>
    rw [get?_cons] at h
    rw [modify_cons]
    split at h
    · rename_i hk
      cases h
      rw [if_pos hk]
    · rename_i hk
      rw [if_neg hk]
      exact ih h

theorem modify_of_none {f : α → Option β × α} (h : get? k fields = none) :
    modify k f fields = (none, fields) := by
  induction fields with
  | nil => rfl
  | cons e fields ih =>
    rw [get?_cons] at h
    split at h
    · cases h
    · rename_i hk
      rw [modify_cons, if_neg hk, ih h]

theorem get?_modify_self {f : α → Option β × α} (h : get? k fields = some v) :
    get? k (modify k f fields).2 = some (f v).2 := by
  induction fields with
  | nil => cases h
  | cons e fields ih =>
    rw [get?_cons] at h
    rw [modify_cons]
    split at h
    · rename_i hk
      cases h
      rw [if_pos hk, get?_cons, if_pos hk]
    · rename_i hk
      rw [if_neg hk, get?_cons, if_neg hk]
      exact ih h

theorem get?_modify_of_ne {f : α → Option β × α} (h : j ≠ k) :
    get? j (modify k f fields).2 = get? j fields := by
  induction fields with
  | nil => rfl
  | cons e fields ih =>
    rw [modify_cons]
    split
    · rename_i hk
      have hj : e.1 ≠ j := by
        rintro rfl
        exact h hk
      rw [get?_cons, get?_cons, if_neg hj, if_neg hj]
    · rw [get?_cons, get?_cons]
      split
      · rfl
      · exact ih

theorem get?_place_self (h : get? k fields = none) : get? k (place k v fields) = some v := by
  induction fields with
  | nil => exact if_pos rfl
  | cons e fields ih =>
    rw [get?_cons] at h
    split at h
    · cases h
    · rename_i hk
      rw [place_cons]
      split
      · rw [get?_cons, if_pos rfl]
      · rw [get?_cons, if_neg hk]
        exact ih h

theorem get?_place_of_ne (h : j ≠ k) : get? j (place k v fields) = get? j fields := by
  induction fields with
  | nil => exact if_neg (Ne.symm h)
  | cons e fields ih =>
    rw [place_cons]
    split
    · rw [get?_cons, if_neg (Ne.symm h)]
    · rw [get?_cons, get?_cons]
      split
      · rfl
      · exact ih

theorem get?_insert_self : get? k (insert k v fields) = some v := by
  unfold insert
  cases h : get? k fields with
  | none =>
    rw [modify_of_none h]
    exact get?_place_self h
  | some w =>
    have hself := get?_modify_self (f := fun _ => (some (), v)) h
    have hsome := modify_of_some (f := fun _ => (some (), v)) h
    split
    · rename_i hm
      rw [hm] at hself
      exact hself
    · rename_i hm
      rw [hm] at hsome
      cases hsome

theorem get?_insert_of_ne (h : j ≠ k) : get? j (insert k v fields) = get? j fields := by
  unfold insert
  have hne : get? j (modify k (fun _ => (some (), v)) fields).2 = get? j fields :=
    get?_modify_of_ne h
  split
  · rename_i hm
    rw [hm] at hne
    exact hne
  · rename_i hm
    rw [hm] at hne
    rw [get?_place_of_ne h]
    exact hne

theorem get?_ensure_self :
    get? k (ensure k v fields) = some ((get? k fields).getD v) := by
  unfold ensure
  cases h : get? k fields with
  | none => exact get?_place_self h
  | some w => exact h

theorem get?_ensure_of_ne (h : j ≠ k) : get? j (ensure k v fields) = get? j fields := by
  unfold ensure
  split
  · rfl
  · exact get?_place_of_ne h

end Fields

/-- The storage that all modules share. -/
def sharedId : String := Storage.shared.id ""

namespace Machine

/-! ## States -/

/-- The scores of registers, and the values under the keys of storages. -/
@[ext]
structure State where
  regs : Register → Option Int32
  cells : String → String → Option Nbt

namespace State

/-- Give a register a score. -/
def setReg (σ : State) (r : Register) (n : Int32) : State :=
  { σ with regs := fun q => if q = r then some n else σ.regs q }

/-- Put a value under a key of a storage. -/
def setCell (σ : State) (id key : String) (v : Nbt) : State :=
  { σ with cells := fun i k => if i = id ∧ k = key then some v else σ.cells i k }

variable (σ : State) (r q : Register) (m n : Int32) (i id k key : String) (v w : Nbt)

/-- The operands, the topmost last. -/
def operands : Option Nbt := σ.cells sharedId "stack"

/-- The frames of the functions under way. -/
def frames : Option Nbt := σ.cells sharedId "frames"

/-- The conditions of the `if` instructions under way. -/
def conditions : Option Nbt := σ.cells sharedId "conditions"

@[simp] theorem regs_setReg : (σ.setReg r n).regs q = if q = r then some n else σ.regs q := rfl

@[simp] theorem cells_setReg : (σ.setReg r n).cells = σ.cells := rfl

@[simp] theorem regs_setCell : (σ.setCell id key v).regs = σ.regs := rfl

@[simp] theorem cells_setCell :
    (σ.setCell id key v).cells i k = if i = id ∧ k = key then some v else σ.cells i k := rfl

@[simp] theorem conditions_setCell : (σ.setCell sharedId "conditions" v).conditions = some v := by
  rw [conditions, cells_setCell, if_pos ⟨rfl, rfl⟩]

@[simp] theorem frames_setCell : (σ.setCell sharedId "frames" v).frames = some v := by
  rw [frames, cells_setCell, if_pos ⟨rfl, rfl⟩]

theorem setReg_setReg : (σ.setReg r m).setReg r n = σ.setReg r n := by
  ext q
  · simp only [regs_setReg]
    split <;> rfl
  · rfl

theorem setCell_setCell : (σ.setCell id key v).setCell id key w = σ.setCell id key w := by
  ext i k
  · rfl
  · simp only [cells_setCell]
    split <;> rfl

variable {σ r q m n i id k key v w}

/-- Giving a register the score that it has changes nothing. -/
theorem setReg_eq_self (h : σ.regs r = some n) : σ.setReg r n = σ := by
  ext q
  · simp only [regs_setReg]
    split
    · rename_i hq
      rw [hq, h]
    · rfl
  · rfl

/-- Putting a value where it is changes nothing. -/
theorem setCell_eq_self (h : σ.cells id key = some v) : σ.setCell id key v = σ := by
  ext i k
  · rfl
  · simp only [cells_setCell]
    split
    · rename_i hik
      rw [hik.1, hik.2, h]
    · rfl

end State

/-! ## Stores and their states -/

/-- The value under a key of a storage. -/
def Store.cell (s : Store) (id key : String) : Option Nbt :=
  match Fields.get? id s.storages with
  | some (.compound fields) => Fields.get? key fields
  | _ => none

/-- The store is in a state, and every storage in it has keys. -/
structure Store.Models (s : Store) (σ : State) : Prop where
  compound : ∀ id root, Fields.get? id s.storages = some root → ∃ fields, root = .compound fields
  regs : ∀ r, s.scores.get? r = σ.regs r
  cells : ∀ id key, s.cell id key = σ.cells id key

namespace Store.Models

variable {s : Store} {σ τ : State} {r : Register} {n : Int32}

/-- A store is in one state. -/
theorem unique (h : s.Models σ) (h' : s.Models τ) : σ = τ := by
  ext r
  · rw [← h.regs, ← h'.regs]
  · rw [← h.cells, ← h'.cells]

theorem read (h : s.Models σ) (hr : σ.regs r = some n) : s.read r = .ok n := by
  unfold Store.read
  rw [h.regs, hr]
  rfl

theorem read_none (h : s.Models σ) (hr : σ.regs r = none) : s.read r = .error (.unsetScore r) := by
  unfold Store.read
  rw [h.regs, hr]
  rfl

theorem readTarget (h : s.Models σ) : s.readTarget r = (σ.regs r).getD 0 := by
  unfold Store.readTarget
  rw [h.regs]

/-- Giving a register a score gives it that score in the state. -/
theorem setReg (h : s.Models σ) (r : Register) (n : Int32) :
    Store.Models { s with scores := s.scores.set r n } (σ.setReg r n) := by
  refine ⟨h.compound, fun q => ?_, h.cells⟩
  rw [State.regs_setReg]
  split
  · rename_i hq
    subst hq
    exact Scores.get?_set_self q n s.scores
  · rename_i hq
    rw [← h.regs]
    exact Scores.get?_set_of_ne hq n s.scores

end Store.Models

/-- The empty store is in the state without scores and values. -/
theorem Store.models_empty : Store.Models {} ⟨fun _ => none, fun _ _ => none⟩ where
  compound := by
    intro _ _ h
    cases h
  regs _ := rfl
  cells _ _ := rfl

end Machine

end WasmPack
