/-
  WasmPack.Proofs.State.Successes

  What a command that has succeeded has found and changed, without knowing
  beforehand that it can succeed.
-/
import WasmPack.Proofs.State.Steps

namespace WasmPack.Machine

variable {α β : Type} {tags : TagTable} {ns k : String} {σ : State} {s s' : Store} {c : Command}
  {path source : Path} {value : Nbt} {rest : List Segment} {names : List String}

/-- A success of a sequence of two pieces of work is a success of each. -/
theorem exec_bind_eq_ok {x : Exec α} {f : α → Exec β} {b : β} :
    (x >>= f) s = .ok b s' ↔ ∃ a s₁, x s = .ok a s₁ ∧ f a s₁ = .ok b s' := by
  show EStateM.bind x f s = _ ↔ _
  rw [EStateM.bind]
  cases x s with
  | ok a s₁ =>
    constructor
    · intro h
      exact ⟨a, s₁, rfl, h⟩
    · rintro ⟨_, _, ⟨⟩, h⟩
      exact h
  | error e s₁ => exact ⟨(fun h => nomatch h), fun ⟨_, _, h, _⟩ => nomatch h⟩

/-- A command without modifiers that succeeds has performed what it says. -/
theorem step_plain_eq_ok (hc : Plain c) (h : step tags ns c s = .ok names s') :
    names = [] ∧ ∃ report, perform ns c s = .ok report s' := by
  rw [step_eq, chain_plain hc] at h
  have hfinish : finish tags ns [] (some c) s = .ok names s' := h
  rw [finish_plain hc] at hfinish
  obtain ⟨report, s₁, hperform, hrest⟩ := exec_bind_eq_ok.1 hfinish
  cases hrest
  exact ⟨rfl, report, hperform⟩

/-- Something was there where a value was required. -/
theorem require_eq_ok (hs : s.Models σ) (hp : Keyed source)
    (h : require ns source s = .ok value s') :
    s' = s ∧ ∃ slot, σ.lookup ns source = some slot ∧ value = slot.toNbt := by
  have hlookup : s.lookup ns source = σ.lookup ns source := hs.lookup hp
  rw [require, inspect] at h
  simp only [hlookup] at h
  cases hl : σ.lookup ns source with
  | none =>
    rw [hl] at h
    cases h
  | some slot =>
    rw [hl] at h
    cases h
    exact ⟨rfl, slot, rfl, rfl⟩

/-- A change along a path that has succeeded. -/
theorem changeAt_eq_ok (hs : s.Models σ) {f : List Segment → Nbt → Option β × Nbt}
    {g : Nbt → Option β × Nbt} {b : β}
    (hf : ∀ fields, f path.segments (.compound fields) =
      ((Fields.modify k g fields).1, .compound (Fields.modify k g fields).2))
    (h : changeAt ns path f s = .ok b s') :
    ∃ v v', σ.cells (path.storage.id ns) k = some v ∧ g v = (some b, v') ∧
      s'.Models (σ.setCell (path.storage.id ns) k v') := by
  have hchange : s.change (path.storage.id ns) (f path.segments) = (some b, s') := by
    unfold changeAt at h
    split at h
    · rename_i heq
      cases h
      exact heq
    · cases h
  cases hk : σ.cells (path.storage.id ns) k with
  | none =>
    obtain ⟨_, hnone, -⟩ := hs.change_key_none hf hk
    cases hnone.symm.trans hchange
  | some v =>
    obtain ⟨_, hsome, hm⟩ := hs.change_key hf hk (rfl : g v = ((g v).1, (g v).2))
    obtain ⟨hb, rfl⟩ := Prod.mk.inj (hsome.symm.trans hchange)
    exact ⟨v, (g v).2, rfl, by rw [← hb], hm⟩

/-- An append that has succeeded. -/
theorem append_eq_ok (hs : s.Models σ) (hp : path.segments = .key k :: rest)
    (h : append ns path value s = .ok () s') :
    ∃ v v', σ.cells (path.storage.id ns) k = some v ∧
      Nbt.append rest value v = (some true, v') ∧
      s'.Models (σ.setCell (path.storage.id ns) k v') := by
  obtain ⟨pushed, s₁, hchange, hrest⟩ := exec_bind_eq_ok.1 h
  obtain ⟨v, v', hk, ha, hm⟩ := changeAt_eq_ok hs
    (fun fields => by rw [hp]; exact Nbt.modifyAt_key _) hchange
  cases pushed with
  | true =>
    cases hrest
    exact ⟨v, v', hk, ha, hm⟩
  | false => cases hrest

/-- A value that has been written inside another. -/
theorem write_eq_ok {b : Bool} (hs : s.Models σ) (hp : path.segments = .key k :: rest)
    (hrest : rest ≠ []) (h : write ns path value s = .ok b s') :
    ∃ v v', σ.cells (path.storage.id ns) k = some v ∧ Nbt.write rest value v = (some b, v') ∧
      s'.Models (σ.setCell (path.storage.id ns) k v') :=
  changeAt_eq_ok hs (fun fields => by rw [hp]; exact Nbt.write_key hrest) h

/-- A value that has been removed from inside another. -/
theorem remove_eq_ok (hs : s.Models σ) (hp : path.segments = .key k :: rest) (hrest : rest ≠ [])
    (h : remove ns path s = .ok () s') :
    ∃ v v', σ.cells (path.storage.id ns) k = some v ∧ Nbt.remove rest v = (some (), v') ∧
      s'.Models (σ.setCell (path.storage.id ns) k v') :=
  changeAt_eq_ok hs (fun fields => by rw [hp]; exact Nbt.remove_key hrest) h

/-! ## Steps -/

theorem step_append_eq_ok (hs : s.Models σ) (hp : path.segments = .key k :: rest)
    (h : step tags ns (.append path value) s = .ok names s') :
    names = [] ∧ ∃ v v', σ.cells (path.storage.id ns) k = some v ∧
      Nbt.append rest value v = (some true, v') ∧
      s'.Models (σ.setCell (path.storage.id ns) k v') := by
  obtain ⟨rfl, report, hperform⟩ := step_plain_eq_ok (.append path value) h
  obtain ⟨u, s₁, happend, hrest⟩ := exec_bind_eq_ok.1 hperform
  cases hrest
  exact ⟨rfl, append_eq_ok hs hp happend⟩

theorem step_appendFrom_eq_ok (hs : s.Models σ) (hp : path.segments = .key k :: rest)
    (hsource : Keyed source) (h : step tags ns (.appendFrom path source) s = .ok names s') :
    names = [] ∧ ∃ slot v v', σ.lookup ns source = some slot ∧
      σ.cells (path.storage.id ns) k = some v ∧ Nbt.append rest slot.toNbt v = (some true, v') ∧
      s'.Models (σ.setCell (path.storage.id ns) k v') := by
  obtain ⟨rfl, report, hperform⟩ := step_plain_eq_ok (.appendFrom path source) h
  obtain ⟨value, s₁, hrequire, hperform⟩ := exec_bind_eq_ok.1 hperform
  obtain ⟨rfl, slot, hslot, rfl⟩ := require_eq_ok hs hsource hrequire
  obtain ⟨u, s₂, happend, hrest⟩ := exec_bind_eq_ok.1 hperform
  cases hrest
  obtain ⟨v, v', hv⟩ := append_eq_ok hs hp happend
  exact ⟨rfl, slot, v, v', hslot, hv⟩

theorem step_setFrom_eq_ok (hs : s.Models σ) (hp : path.segments = .key k :: rest)
    (hrest : rest ≠ []) (hsource : Keyed source)
    (h : step tags ns (.setFrom path source) s = .ok names s') :
    names = [] ∧ ∃ slot v v' b, σ.lookup ns source = some slot ∧
      σ.cells (path.storage.id ns) k = some v ∧ Nbt.write rest slot.toNbt v = (some b, v') ∧
      s'.Models (σ.setCell (path.storage.id ns) k v') := by
  obtain ⟨rfl, report, hperform⟩ := step_plain_eq_ok (.setFrom path source) h
  obtain ⟨value, s₁, hrequire, hperform⟩ := exec_bind_eq_ok.1 hperform
  obtain ⟨rfl, slot, hslot, rfl⟩ := require_eq_ok hs hsource hrequire
  obtain ⟨b, s₂, hwrite, hrest'⟩ := exec_bind_eq_ok.1 hperform
  cases hrest'
  obtain ⟨v, v', hv⟩ := write_eq_ok hs hp hrest hwrite
  exact ⟨rfl, slot, v, v', b, hslot, hv⟩

theorem step_remove_eq_ok (hs : s.Models σ) (hp : path.segments = .key k :: rest)
    (hrest : rest ≠ []) (h : step tags ns (.remove path) s = .ok names s') :
    names = [] ∧ ∃ v v', σ.cells (path.storage.id ns) k = some v ∧
      Nbt.remove rest v = (some (), v') ∧
      s'.Models (σ.setCell (path.storage.id ns) k v') := by
  obtain ⟨rfl, report, hperform⟩ := step_plain_eq_ok (.remove path) h
  obtain ⟨u, s₁, hremove, hrest'⟩ := exec_bind_eq_ok.1 hperform
  cases hrest'
  exact ⟨rfl, remove_eq_ok hs hp hrest hremove⟩

end WasmPack.Machine
