/-
  WasmPack.Proofs.Nbt.Lens

  Writing along paths.  A write puts its value where the path leads, leaves alone
  what no common path leads to, and reports whether the value as a whole has
  changed; of two writes along one path the second counts.  A write that cannot be
  made changes nothing.
-/
import WasmPack.Proofs.Nbt.Places

namespace WasmPack.Nbt

variable {β : Type} {root root' v v' value later : Nbt} {s t : Segment} {rest path : List Segment}
  {slot : Slot} {changed changed' : Bool}

/-! ## Reading -/

theorem lookup_of_element {b : Int8} (h : root.child? s = some (.element b)) :
    lookup root (s :: rest) = if rest = [] then some (.element b) else none := by
  unfold lookup
  rw [h]
  cases rest <;> rfl

/-- The two ways of reading agree on stored values. -/
theorem stored?_eq_some_iff : stored? root path = some v ↔ lookup root path = some (.stored v) := by
  induction path generalizing root with
  | nil =>
    rw [stored?, lookup, Option.some.injEq, Option.some.injEq, Slot.stored.injEq]
  | cons s rest ih =>
    cases hc : root.child? s with
    | none =>
      rw [lookup_of_child_none hc, stored?, hc]
      constructor <;> intro h <;> cases h
    | some slot =>
      cases slot with
      | stored w => rw [lookup_of_child hc, ← ih, stored?, hc]
      | element b =>
        rw [lookup_of_element hc, stored?, hc]
        constructor
        · intro h
          cases h
        · intro h
          split at h <;> cases h

/-- What is stored deeper down is stored in a child. -/
theorem exists_child_of_lookup (h : lookup root (s :: rest) = some (.stored v)) :
    ∃ w, root.child? s = some (.stored w) ∧ lookup w rest = some (.stored v) := by
  cases hc : root.child? s with
  | none =>
    rw [lookup_of_child_none hc] at h
    cases h
  | some slot =>
    cases slot with
    | stored w => exact ⟨w, rfl, (lookup_of_child hc).symm.trans h⟩
    | element b =>
      rw [lookup_of_element hc] at h
      split at h <;> cases h

/-! ## Changing -/

/-- A change along a path is a change of a child along the rest, if a value is stored there. -/
theorem modifyAt_cons (f : Nbt → Option β × Nbt) (rest : List Segment)
    (h : root.child? s = some (.stored v)) :
    ∃ changed root', Sets s (modifyAt f rest v).2 root changed root' ∧
      modifyAt f (s :: rest) root = ((modifyAt f rest v).1, root') := by
  cases s with
  | key k =>
    cases root with
    | compound fields =>
      obtain ⟨w, hw, hv⟩ := Option.map_eq_some_iff.1 h
      cases hv
      refine ⟨_, _, .field k _ fields, ?_⟩
      rw [modifyAt_key, Fields.modify_eq_insert hw]
    | _ => cases h
  | index i =>
    cases root with
    | list items =>
      rw [child?_item] at h
      obtain ⟨j, hp, h⟩ := Option.bind_eq_some_iff.1 h
      obtain ⟨w, hw, hv⟩ := Option.map_eq_some_iff.1 h
      cases hv
      exact ⟨_, _, .item _ hp, modifyAt_index hp hw⟩
    | bytes elements => exact absurd h (child?_bytes_ne elements _ v)
    | _ => cases h

/-- Where no value is stored, nothing can be changed. -/
theorem modifyAt_cons_none (f : Nbt → Option β × Nbt)
    (h : ∀ v, root.child? s ≠ some (.stored v)) : modifyAt f (s :: rest) root = (none, root) := by
  cases s with
  | key k =>
    cases root with
    | compound fields =>
      have hnone : Fields.get? k fields = none := by
        rw [Option.eq_none_iff_forall_not_mem]
        exact fun v hv => h v (congrArg (Option.map Slot.stored) hv)
      rw [modifyAt_key, Fields.modify_of_none hnone]
    | _ => rfl
  | index i =>
    cases root with
    | list items =>
      have hnone : position? i items.size = none := by
        rw [Option.eq_none_iff_forall_not_mem]
        intro j hj
        have hlt := lt_of_position? hj
        refine h items[j] ?_
        rw [child?_item, hj, Option.bind_some, Array.getElem?_eq_getElem hlt, Option.map_some]
      exact modifyAt_index_none hnone
    | _ => rfl

/-- Changing reaches what is stored: a change along a path is made to the value that is stored there,
    and what that becomes is stored there then. -/
theorem modifyAt_of_stored (f : Nbt → Option β × Nbt) (h : lookup root path = some (.stored v)) :
    (modifyAt f path root).1 = (f v).1 ∧
      lookup (modifyAt f path root).2 path = some (.stored (f v).2) := by
  induction path generalizing root with
  | nil =>
    cases h
    exact ⟨rfl, rfl⟩
  | cons s rest ih =>
    obtain ⟨w, hw, hrest⟩ := exists_child_of_lookup h
    obtain ⟨changed, root', hsets, hmodify⟩ := modifyAt_cons f rest hw
    obtain ⟨hreport, hlookup⟩ := ih hrest
    rw [hmodify, lookup_of_child (hsets.child?_of_stored hw)]
    exact ⟨hreport, hlookup⟩

/-- Where no value is stored, nothing changes. -/
theorem modifyAt_of_not_stored (f : Nbt → Option β × Nbt)
    (h : ∀ v, lookup root path ≠ some (.stored v)) : modifyAt f path root = (none, root) := by
  induction path generalizing root with
  | nil => exact absurd rfl (h root)
  | cons s rest ih =>
    by_cases hc : ∃ w, root.child? s = some (.stored w)
    · obtain ⟨w, hw⟩ := hc
      obtain ⟨changed, root', hsets, hmodify⟩ := modifyAt_cons f rest hw
      have hrest := ih (fun v hv => h v ((lookup_of_child hw).trans hv))
      rw [hrest] at hmodify hsets
      rw [hmodify, not_not.1 fun hne => (hsets.ne_iff hw).1 hne rfl]
    · exact modifyAt_cons_none f fun v hv => hc ⟨v, hv⟩

/-! ## Writing -/

/-- A write along a path takes one value to another, and changes it or not. -/
inductive Writes : List Segment → Nbt → Nbt → Bool → Nbt → Prop where
  | last {s : Segment} {value root root' : Nbt} {changed : Bool}
    (h : Sets s value root changed root') : Writes [s] value root changed root'
  | step {s : Segment} {rest : List Segment} {value root root' v v' : Nbt} {changed changed' : Bool}
    (hc : root.child? s = some (.stored v)) (h : Writes rest value v changed v')
    (hset : Sets s v' root changed' root') : Writes (s :: rest) value root changed root'

theorem Writes.ne_nil (h : Writes path value root changed root') : path ≠ [] := by
  cases h <;> exact List.cons_ne_nil _ _

/-- A write along more than one segment changes what lies behind the first of them. -/
theorem write_cons (s : Segment) (value : Nbt) (hrest : rest ≠ []) :
    ∃ f : Nbt → Option Bool × Nbt, ∃ parents, write rest value = modifyAt f parents ∧
      write (s :: rest) value = modifyAt f (s :: parents) := by
  obtain ⟨parents, last, hsplit⟩ := splitLast?_isSome hrest
  refine ⟨writeChild last value, parents, ?_, ?_⟩
  · funext root
    rw [write, hsplit]
  · funext root
    rw [write, splitLast?_cons hrest, hsplit]
    rfl

theorem write_eq_some_iff :
    write path value root = (some changed, root') ↔ Writes path value root changed root' := by
  constructor
  · intro h
    induction path generalizing root root' changed with
    | nil => cases h
    | cons s rest ih =>
      by_cases hrest : rest = []
      · subst hrest
        exact .last (writeChild_eq_some_iff.1 h)
      obtain ⟨f, parents, hinner, houter⟩ := write_cons s value hrest
      rw [houter] at h
      by_cases hc : ∃ v, root.child? s = some (.stored v)
      · obtain ⟨v, hv⟩ := hc
        obtain ⟨changed', root₁, hset, hmodify⟩ := modifyAt_cons f parents hv
        rw [hmodify] at h
        obtain ⟨hreport, rfl⟩ := Prod.mk.inj h
        refine .step hv (ih ?_) hset
        rw [hinner, ← hreport]
      · rw [modifyAt_cons_none f fun v hv => hc ⟨v, hv⟩] at h
        cases h
  · intro h
    induction h with
    | last h => exact writeChild_eq_some_iff.2 h
    | @step s rest value root root' v v' changed changed' hc h hset ih =>
      obtain ⟨f, parents, hinner, houter⟩ := write_cons s value h.ne_nil
      obtain ⟨changed₁, root₁, hset₁, hmodify⟩ := modifyAt_cons f parents hc
      rw [← hinner, ih] at hset₁ hmodify
      rw [houter, hmodify, hset₁.unique hset]

/-- What a successful write makes of a value. -/
structure Written (root : Nbt) (path : List Segment) (value : Nbt) (changed : Bool) (root' : Nbt) :
    Prop where
  /-- What has been written lies where the path leads, whole or as a byte. -/
  found : ∃ container slot, lookup root path.dropLast = some (.stored container) ∧
    Shows container value slot ∧ lookup root' path = some slot
  /-- A path of which neither is a part of the other leads to what it led to. -/
  kept : ∀ other, ¬places root other <+: places root path → ¬places root path <+: places root other →
    lookup root' other = lookup root other
  /-- The report says whether the value has changed. -/
  changed_iff : changed = true ↔ root' ≠ root
  /-- A second write along the path makes of the value what it would have made of the first one. -/
  again : ∀ later changed' root'', write path later root' = (some changed', root'') →
    ∃ changed'', write path later root = (some changed'', root'')

namespace Writes

variable {root'' : Nbt}

theorem found (h : Writes path value root changed root') : ∃ container slot,
    lookup root path.dropLast = some (.stored container) ∧ Shows container value slot ∧
      lookup root' path = some slot := by
  induction h with
  | @last s value root root' changed hset =>
    obtain ⟨slot, hshows, hchild⟩ := hset.exists_child?
    refine ⟨root, slot, rfl, hshows, ?_⟩
    cases slot with
    | stored w => exact lookup_of_child hchild
    | element b => exact lookup_of_element hchild
  | @step s rest value root root' v v' changed changed' hc h hset ih =>
    obtain ⟨container, slot, hparent, hshows, hlookup⟩ := ih
    refine ⟨container, slot, ?_, hshows, ?_⟩
    · rw [List.dropLast_cons_of_ne_nil h.ne_nil, lookup_of_child hc, hparent]
    · rw [lookup_of_child (hset.child?_of_stored hc), hlookup]

/-- What lies along a path is left alone if the path leads elsewhere. -/
theorem kept {other : List Segment} (h : Writes path value root changed root')
    (hout : ¬places root other <+: places root path)
    (hin : ¬places root path <+: places root other) : lookup root' other = lookup root other := by
  -- The induction is along the written path; the other one may go with it for a while.
  induction h generalizing other with
  | @last s value root root' changed hset =>
    cases other with
    | nil => exact absurd List.nil_prefix hout
    | cons t rest =>
      refine lookup_congr (hset.child?_of_ne fun heq => hin ?_)
      rw [places, places, places, heq]
      exact List.cons_prefix_cons.2 ⟨rfl, List.nil_prefix⟩
  | @step s rest value root root' v v' changed changed' hc h hset ih =>
    cases other with
    | nil => exact absurd List.nil_prefix hout
    | cons t rest' =>
      by_cases heq : root.placeOf t = root.placeOf s
      · have hct : root.child? t = some (.stored v) := (child?_congr heq).trans hc
        have hct' : root'.child? t = some (.stored v') := by
          rw [child?_congr (t := s) (by rw [hset.placeOf, hset.placeOf, heq])]
          exact hset.child?_of_stored hc
        rw [places, places, heq, valueAt, valueAt, hct, hc] at hout hin
        rw [lookup_of_child hct, lookup_of_child hct']
        exact ih (fun hp => hout (List.cons_prefix_cons.2 ⟨rfl, hp⟩))
          fun hp => hin (List.cons_prefix_cons.2 ⟨rfl, hp⟩)
      · exact lookup_congr (hset.child?_of_ne heq)

theorem changed_iff (h : Writes path value root changed root') : changed = true ↔ root' ≠ root := by
  induction h with
  | last hset => exact hset.changed_iff
  | step hc _ hset ih => rw [ih, hset.ne_iff hc]

theorem again (h : Writes path value root changed root')
    (h' : Writes path later root' changed' root'') :
    ∃ changed'', Writes path later root changed'' root'' := by
  induction h generalizing root'' changed' with
  | last hset =>
    cases h' with
    | last hset' =>
      obtain ⟨changed'', hset''⟩ := hset.again hset'
      exact ⟨changed'', .last hset''⟩
    | step _ h' _ => exact absurd rfl h'.ne_nil
  | step hc h hset ih =>
    cases h' with
    | last hset' => exact absurd rfl h.ne_nil
    | step hc' h' hset' =>
      rw [hset.child?_of_stored hc] at hc'
      cases hc'
      obtain ⟨changed₁, h₁⟩ := ih h'
      obtain ⟨changed₂, hset₂⟩ := hset.again hset'
      exact ⟨changed₁, .step hc h₁ hset₂⟩

theorem written (h : Writes path value root changed root') :
    Written root path value changed root' where
  found := h.found
  kept := fun _ => h.kept
  changed_iff := h.changed_iff
  again := fun _ _ _ h' => by
    obtain ⟨changed'', h''⟩ := h.again (write_eq_some_iff.1 h')
    exact ⟨changed'', write_eq_some_iff.2 h''⟩

end Writes

theorem eq_of_write_eq_none (h : write path value root = (none, root')) : root' = root := by
  induction path generalizing root root' with
  | nil => exact (Prod.mk.inj h).2.symm
  | cons s rest ih =>
    by_cases hrest : rest = []
    · subst hrest
      exact eq_of_writeChild_eq_none h
    obtain ⟨f, parents, hinner, houter⟩ := write_cons s value hrest
    rw [houter] at h
    by_cases hc : ∃ v, root.child? s = some (.stored v)
    · obtain ⟨v, hv⟩ := hc
      obtain ⟨changed, root₁, hset, hmodify⟩ := modifyAt_cons f parents hv
      rw [hmodify] at h
      obtain ⟨hreport, rfl⟩ := Prod.mk.inj h
      have hsame : (modifyAt f parents v).2 = v := by
        refine ih ?_
        rw [hinner, ← hreport]
      exact not_not.1 fun hne => (hset.ne_iff hv).1 hne hsame
    · rw [modifyAt_cons_none f fun v hv => hc ⟨v, hv⟩] at h
      exact (Prod.mk.inj h).2.symm

/-- A write succeeds exactly where the value in front of the last segment takes it. -/
theorem exists_writes_iff : (∃ changed root', Writes path value root changed root') ↔
    ∃ container last, path.getLast? = some last ∧
      lookup root path.dropLast = some (.stored container) ∧ container.Takes last value := by
  constructor
  · rintro ⟨changed, root', h⟩
    induction h with
    | last hset => exact ⟨_, _, rfl, rfl, exists_sets_iff.1 ⟨_, _, hset⟩⟩
    | @step s rest value root root' v v' changed changed' hc h hset ih =>
      obtain ⟨container, last, hlast, hparent, htakes⟩ := ih
      refine ⟨container, last, ?_, ?_, htakes⟩
      · rw [List.getLast?_cons, hlast, Option.getD_some]
      · rw [List.dropLast_cons_of_ne_nil h.ne_nil, lookup_of_child hc, hparent]
  · rintro ⟨container, last, hlast, hparent, htakes⟩
    induction path generalizing root with
    | nil => cases hlast
    | cons s rest ih =>
      by_cases hrest : rest = []
      · subst hrest
        cases hlast
        cases hparent
        obtain ⟨changed, root', hset⟩ := exists_sets_iff.2 htakes
        exact ⟨_, _, .last hset⟩
      · rw [List.dropLast_cons_of_ne_nil hrest] at hparent
        obtain ⟨v, hv, hparent⟩ := exists_child_of_lookup hparent
        rw [List.getLast?_cons_of_ne_nil hrest] at hlast
        obtain ⟨changed, v', h⟩ := ih hlast hparent
        obtain ⟨changed', root', hset⟩ := exists_sets_of_stored hv v'
        exact ⟨_, _, .step hv h hset⟩

/-- **Writing along a path.**  A write succeeds exactly where its value is taken, and then it is a lens:
    the value lies where the path leads, other paths lead to what they led to, the report says whether
    anything has changed, and a second write takes the place of the first.  Where it fails, nothing has
    changed.  The two ways down agree: what is changed along a path is the stored value that reading
    finds there, and where reading finds none, nothing is changed. -/
theorem write_lens (root value : Nbt) (path : List Segment) :
    ((∃ changed root', write path value root = (some changed, root')) ↔
      ∃ container last, path.getLast? = some last ∧
        lookup root path.dropLast = some (.stored container) ∧ container.Takes last value) ∧
    (∀ changed root', write path value root = (some changed, root') →
      Written root path value changed root') ∧
    (∀ root', write path value root = (none, root') → root' = root) ∧
    (∀ v, stored? root path = some v ↔ lookup root path = some (.stored v)) ∧
    ∀ {β : Type} (f : Nbt → Option β × Nbt),
      (∀ v, lookup root path = some (.stored v) → (modifyAt f path root).1 = (f v).1 ∧
        lookup (modifyAt f path root).2 path = some (.stored (f v).2)) ∧
      ((∀ v, lookup root path ≠ some (.stored v)) → modifyAt f path root = (none, root)) := by
  refine ⟨?_, fun _ _ h => (write_eq_some_iff.1 h).written, fun _ => eq_of_write_eq_none,
    fun _ => stored?_eq_some_iff, fun f =>
      ⟨fun _ => modifyAt_of_stored f, modifyAt_of_not_stored f⟩⟩
  rw [← exists_writes_iff]
  exact exists_congr fun _ => exists_congr fun _ => write_eq_some_iff

/-- A byte counted from the end of an array inside a list: 200 is kept as -56. -/
theorem write_lens_byte :
    write [.key "pages", .index (-1), .index (-2)] (.int 200)
      (compound [("pages", list #[.emptyList, bytes #[0, -1, 5]])]) =
        (some true, compound [("pages", list #[.emptyList, bytes #[0, -56, 5]])]) ∧
    Written (compound [("pages", list #[.emptyList, bytes #[0, -1, 5]])])
      [.key "pages", .index (-1), .index (-2)] (.int 200) true
      (compound [("pages", list #[.emptyList, bytes #[0, -56, 5]])]) := by
  have hwrite : write [.key "pages", .index (-1), .index (-2)] (.int 200)
      (compound [("pages", list #[.emptyList, bytes #[0, -1, 5]])]) =
        (some true, compound [("pages", list #[.emptyList, bytes #[0, -56, 5]])]) := by
    decide +kernel
  exact ⟨hwrite, (write_lens _ _ _).2.1 _ _ hwrite⟩

end WasmPack.Nbt
