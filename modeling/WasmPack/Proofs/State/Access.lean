/-
  WasmPack.Proofs.State.Access

  Reading and changing values in a state.  Every path of compiled code begins
  with a key, so whatever is done along a path is done to the value under that
  key.
-/
import WasmPack.Proofs.State.Basic

namespace WasmPack

namespace Nbt

variable {β : Type} {k : String} {segment : Segment} {rest : List Segment} {value : Nbt}
  {fields : List (String × Nbt)}

/-! ## Descending through a key -/

theorem lookup_key :
    lookup (compound fields) (.key k :: rest) =
      (Fields.get? k fields).bind fun v => lookup v rest := by
  have hc : child? (compound fields) (.key k) = (Fields.get? k fields).map .stored := rfl
  cases h : Fields.get? k fields <;> simp [lookup, hc, h]

theorem modifyAt_key (f : Nbt → Option β × Nbt) :
    modifyAt f (.key k :: rest) (compound fields) =
      ((Fields.modify k (modifyAt f rest) fields).1,
        compound (Fields.modify k (modifyAt f rest) fields).2) := rfl

theorem splitLast?_cons (h : rest ≠ []) :
    splitLast? (segment :: rest) =
      (splitLast? rest).map fun (parents, last) => (segment :: parents, last) := by
  cases rest with
  | nil => exact absurd rfl h
  | cons => rfl

theorem splitLast?_isSome (h : rest ≠ []) : ∃ parents last, splitLast? rest = some (parents, last) := by
  induction rest with
  | nil => exact absurd rfl h
  | cons segment rest ih =>
    by_cases hr : rest = []
    · subst hr
      exact ⟨[], segment, rfl⟩
    · obtain ⟨parents, last, hs⟩ := ih hr
      exact ⟨segment :: parents, last, by rw [splitLast?_cons hr, hs]; rfl⟩

theorem write_key (h : rest ≠ []) :
    write (.key k :: rest) value (compound fields) =
      ((Fields.modify k (write rest value) fields).1,
        compound (Fields.modify k (write rest value) fields).2) := by
  obtain ⟨parents, last, hs⟩ := splitLast?_isSome h
  have hw : write rest value = modifyAt (writeChild last value) parents := by
    funext root
    rw [write, hs]
  rw [write, splitLast?_cons h, hs, hw]
  rfl

theorem remove_key (h : rest ≠ []) :
    remove (.key k :: rest) (compound fields) =
      ((Fields.modify k (remove rest) fields).1,
        compound (Fields.modify k (remove rest) fields).2) := by
  obtain ⟨parents, last, hs⟩ := splitLast?_isSome h
  have hr : remove rest = modifyAt (removeChild last) parents := by
    funext root
    rw [remove, hs]
  rw [remove, splitLast?_cons h, hs, hr]
  rfl

end Nbt

namespace Machine

/-! ## Reading -/

/-- What lies at a path that begins with a key. -/
def State.lookup (σ : State) (ns : String) (path : Path) : Option Nbt.Slot :=
  match path.segments with
  | .key k :: rest => (σ.cells (path.storage.id ns) k).bind fun v => v.lookup rest
  | _ => none

/-- The path begins with a key. -/
def Keyed (path : Path) : Prop := ∃ k rest, path.segments = .key k :: rest

namespace Store.Models

variable {s : Store} {σ τ : State} {ns id k : String} {path : Path} {β : Type}

theorem lookup (h : s.Models σ) (hp : Keyed path) : s.lookup ns path = σ.lookup ns path := by
  obtain ⟨k, rest, hk⟩ := hp
  unfold Store.lookup State.lookup
  rw [hk]
  simp only
  rw [← h.cells, Store.cell]
  cases hs : Fields.get? (path.storage.id ns) s.storages with
  | none => rfl
  | some root =>
    obtain ⟨fields, rfl⟩ := h.compound _ _ hs
    exact Nbt.lookup_key

/-! ## Changing -/

/-- The fields of a storage, without any where it is missing. -/
theorem exists_fields (h : s.Models σ) (id : String) :
    ∃ fields, Fields.get? id (Fields.ensure id (.compound []) s.storages) =
      some (.compound fields) ∧ ∀ k, Fields.get? k fields = σ.cells id k := by
  rw [Fields.get?_ensure_self]
  cases hs : Fields.get? id s.storages with
  | none =>
    refine ⟨[], rfl, fun k => ?_⟩
    rw [← h.cells, Store.cell, hs]
    rfl
  | some root =>
    obtain ⟨fields, rfl⟩ := h.compound _ _ hs
    refine ⟨fields, rfl, fun k => ?_⟩
    rw [← h.cells, Store.cell, hs]

/-- A change of the fields of a storage changes the values under its keys. -/
theorem change (h : s.Models σ) {f : Nbt → Option β × Nbt} {fields fields' : List (String × Nbt)}
    {b : Option β} (hfields : Fields.get? id (Fields.ensure id (.compound []) s.storages) =
      some (.compound fields))
    (hf : f (.compound fields) = (b, .compound fields')) (hregs : τ.regs = σ.regs)
    (hself : ∀ k, Fields.get? k fields' = τ.cells id k)
    (hother : ∀ i, i ≠ id → τ.cells i = σ.cells i) :
    ∃ s', s.change id f = (b, s') ∧ s'.Models τ := by
  refine ⟨⟨s.scores, (Fields.modify id f (Fields.ensure id (.compound []) s.storages)).2⟩, ?_, ?_⟩
  · have hb := Fields.modify_of_some (f := f) hfields
    rw [hf] at hb
    show ((Fields.modify id f _).1, _) = _
    rw [hb]
  · have hnew := Fields.get?_modify_self (f := f) hfields
    rw [hf] at hnew
    have hold : ∀ i, i ≠ id → Fields.get? i (Fields.modify id f
        (Fields.ensure id (.compound []) s.storages)).2 = Fields.get? i s.storages := fun i hi => by
      rw [Fields.get?_modify_of_ne hi, Fields.get?_ensure_of_ne hi]
    refine ⟨fun i root hroot => ?_, fun r => ?_, fun i k => ?_⟩
    · by_cases hi : i = id
      · subst hi
        rw [hnew] at hroot
        cases hroot
        exact ⟨fields', rfl⟩
      · rw [hold i hi] at hroot
        exact h.compound i root hroot
    · rw [hregs]
      exact h.regs r
    · rw [Store.cell]
      by_cases hi : i = id
      · subst hi
        rw [hnew]
        exact hself k
      · rw [hold i hi, hother i hi, ← h.cells, Store.cell]

/-- A change of the value under a key. -/
theorem change_key (h : s.Models σ) {f g : Nbt → Option β × Nbt} {v v' : Nbt} {b : Option β}
    (hf : ∀ fields, f (.compound fields) =
      ((Fields.modify k g fields).1, .compound (Fields.modify k g fields).2))
    (hk : σ.cells id k = some v) (hg : g v = (b, v')) :
    ∃ s', s.change id f = (b, s') ∧ s'.Models (σ.setCell id k v') := by
  obtain ⟨fields, hfields, hcells⟩ := h.exists_fields id
  have hv : Fields.get? k fields = some v := by rw [hcells, hk]
  have hb := Fields.modify_of_some (f := g) hv
  rw [hg] at hb
  refine h.change hfields (by rw [hf, hb]) rfl (fun j => ?_) fun i hi => ?_
  · rw [State.cells_setCell]
    split
    · rename_i hj
      rw [hj.2, Fields.get?_modify_self hv, hg]
    · rename_i hj
      rw [Fields.get?_modify_of_ne fun hjk => hj ⟨rfl, hjk⟩, hcells]
  · funext j
    rw [State.cells_setCell, if_neg fun hij => hi hij.1]

/-- A change of the value under a key that is missing is none. -/
theorem change_key_none (h : s.Models σ) {f g : Nbt → Option β × Nbt}
    (hf : ∀ fields, f (.compound fields) =
      ((Fields.modify k g fields).1, .compound (Fields.modify k g fields).2))
    (hk : σ.cells id k = none) : ∃ s', s.change id f = (none, s') ∧ s'.Models σ := by
  obtain ⟨fields, hfields, hcells⟩ := h.exists_fields id
  have hv : Fields.get? k fields = none := by rw [hcells, hk]
  have hfields' : f (.compound fields) = (none, .compound fields) := by
    rw [hf, Fields.modify_of_none hv]
  exact h.change hfields hfields' rfl hcells fun i _ => rfl

/-! ## Changes along paths -/

section Paths

variable {value v v' : Nbt} {rest : List Segment}

/-- What a change along a path does to a store, by what it does to the value under the key. -/
theorem changeAt_key (h : s.Models σ) {f : List Segment → Nbt → Option β × Nbt}
    {g : Nbt → Option β × Nbt} {b : β}
    (hf : ∀ fields, f path.segments (.compound fields) =
      ((Fields.modify k g fields).1, .compound (Fields.modify k g fields).2))
    (hk : σ.cells (path.storage.id ns) k = some v) (hg : g v = (some b, v')) :
    ∃ s', changeAt ns path f s = .ok b s' ∧ s'.Models (σ.setCell (path.storage.id ns) k v') := by
  obtain ⟨s', hs, hm⟩ := h.change_key hf hk hg
  refine ⟨s', ?_, hm⟩
  unfold changeAt
  rw [hs]

/-- A change along a path that cannot be made leaves the state as it is. -/
theorem changeAt_key_none (h : s.Models σ) {f : List Segment → Nbt → Option β × Nbt}
    {g : Nbt → Option β × Nbt}
    (hf : ∀ fields, f path.segments (.compound fields) =
      ((Fields.modify k g fields).1, .compound (Fields.modify k g fields).2))
    (hg : ∀ v, σ.cells (path.storage.id ns) k = some v → g v = (none, v)) :
    ∃ s', changeAt ns path f s = .error (.missingPath (path.render ns)) s' ∧ s'.Models σ := by
  cases hk : σ.cells (path.storage.id ns) k with
  | none =>
    obtain ⟨s', hs, hm⟩ := h.change_key_none hf hk
    refine ⟨s', ?_, hm⟩
    unfold changeAt
    rw [hs]
  | some v =>
    obtain ⟨s', hs, hm⟩ := h.change_key hf hk (hg v hk)
    rw [State.setCell_eq_self hk] at hm
    refine ⟨s', ?_, hm⟩
    unfold changeAt
    rw [hs]

theorem write_top (h : s.Models σ) (hp : path.segments = [.key k]) :
    ∃ s', write ns path value s = .ok (σ.cells (path.storage.id ns) k ≠ some value) s' ∧
      s'.Models (σ.setCell (path.storage.id ns) k value) := by
  obtain ⟨fields, hfields, hcells⟩ := h.exists_fields (path.storage.id ns)
  have hwrite : Nbt.write path.segments value (.compound fields) =
      (some (decide (σ.cells (path.storage.id ns) k ≠ some value)),
        .compound (Fields.insert k value fields)) := by
    rw [hp, ← hcells]
    rfl
  have hself : ∀ j, Fields.get? j (Fields.insert k value fields) =
      (σ.setCell (path.storage.id ns) k value).cells (path.storage.id ns) j := fun j => by
    rw [State.cells_setCell]
    split
    · rename_i hj
      rw [hj.2, Fields.get?_insert_self]
    · rename_i hj
      rw [Fields.get?_insert_of_ne fun hjk => hj ⟨rfl, hjk⟩, hcells]
  have hother : ∀ i, i ≠ path.storage.id ns →
      (σ.setCell (path.storage.id ns) k value).cells i = σ.cells i := fun i hi => by
    funext j
    rw [State.cells_setCell, if_neg fun hij => hi hij.1]
  have hregs : (σ.setCell (path.storage.id ns) k value).regs = σ.regs := rfl
  obtain ⟨s', hs, hm⟩ := h.change hfields hwrite hregs hself hother
  refine ⟨s', ?_, hm⟩
  unfold write changeAt
  rw [hs]

theorem write_deep (h : s.Models σ) {b : Bool} (hp : path.segments = .key k :: rest)
    (hrest : rest ≠ []) (hk : σ.cells (path.storage.id ns) k = some v)
    (hw : Nbt.write rest value v = (some b, v')) :
    ∃ s', write ns path value s = .ok b s' ∧
      s'.Models (σ.setCell (path.storage.id ns) k v') :=
  h.changeAt_key (fun fields => by rw [hp]; exact Nbt.write_key hrest) hk hw

theorem write_deep_none (h : s.Models σ) (hp : path.segments = .key k :: rest) (hrest : rest ≠ [])
    (hw : ∀ v, σ.cells (path.storage.id ns) k = some v → Nbt.write rest value v = (none, v)) :
    ∃ s', write ns path value s = .error (.missingPath (path.render ns)) s' ∧ s'.Models σ :=
  h.changeAt_key_none (fun fields => by rw [hp]; exact Nbt.write_key hrest) hw

theorem remove_deep (h : s.Models σ) (hp : path.segments = .key k :: rest) (hrest : rest ≠ [])
    (hk : σ.cells (path.storage.id ns) k = some v)
    (hr : Nbt.remove rest v = (some (), v')) :
    ∃ s', remove ns path s = .ok () s' ∧ s'.Models (σ.setCell (path.storage.id ns) k v') :=
  h.changeAt_key (fun fields => by rw [hp]; exact Nbt.remove_key hrest) hk hr

theorem append_deep (h : s.Models σ) (hp : path.segments = .key k :: rest)
    (hk : σ.cells (path.storage.id ns) k = some v)
    (ha : Nbt.append rest value v = (some true, v')) :
    ∃ s', append ns path value s = .ok () s' ∧
      s'.Models (σ.setCell (path.storage.id ns) k v') := by
  obtain ⟨s', hs, hm⟩ := h.changeAt_key (f := fun segments root => Nbt.append segments value root)
    (fun fields => by rw [hp]; exact Nbt.modifyAt_key _) hk ha
  refine ⟨s', ?_, hm⟩
  show (changeAt ns path (fun segments root => Nbt.append segments value root) >>= _) s = _
  show EStateM.bind _ _ s = _
  rw [EStateM.bind, hs]
  rfl

end Paths

end Store.Models

end Machine

end WasmPack
