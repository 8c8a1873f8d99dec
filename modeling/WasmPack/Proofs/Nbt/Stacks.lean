/-
  WasmPack.Proofs.Nbt.Stacks

  Lists and byte arrays as stacks, wherever they lie in a value.  What is appended
  comes last and is the first to go again; what is removed lets everything behind
  it move up by one.  An index may count from the end, so before and after a change
  the same index can mean different elements: they are compared by their positions.
-/
import WasmPack.Proofs.Nbt.Lens

namespace WasmPack.Nbt

variable {β γ : Type} {f : Nbt → Option β × Nbt} {g : Nbt → Option γ × Nbt}
  {root root' v v' value container container' : Nbt} {rest path other : List Segment} {i i' : Int32}
  {j m n : Nat}

/-! ## Along a path -/

/-- Behind a path goes on what lies there. -/
theorem lookup_append (root : Nbt) (path rest : List Segment) : lookup root (path ++ rest) =
    (lookup root path).bind fun
      | .stored v => lookup v rest
      | .element b => if rest = [] then some (.element b) else none := by
  induction path generalizing root with
  | nil => rfl
  | cons s path ih =>
    rw [List.cons_append]
    cases hc : root.child? s with
    | none =>
      rw [lookup_of_child_none hc, lookup_of_child_none hc]
      rfl
    | some slot =>
      cases slot with
      | stored v => rw [lookup_of_child hc, lookup_of_child hc, ih]
      | element b =>
        rw [lookup_of_element hc, lookup_of_element hc]
        cases path <;> rfl

theorem lookup_append_of_stored (h : lookup root path = some (.stored v)) (rest : List Segment) :
    lookup root (path ++ rest) = lookup v rest := by
  rw [lookup_append, h]
  rfl

/-- Nothing lies behind what is not stored. -/
theorem lookup_append_of_not_stored (h : ∀ v, lookup root path ≠ some (.stored v))
    (hrest : rest ≠ []) : lookup root (path ++ rest) = none := by
  rw [lookup_append]
  cases hslot : lookup root path with
  | none => rfl
  | some slot =>
    cases slot with
    | stored v => exact absurd hslot (h v)
    | element b => exact if_neg hrest

theorem lookup_singleton (root : Nbt) (s : Segment) : lookup root [s] = root.child? s := by
  cases hc : root.child? s with
  | none => exact lookup_of_child_none hc
  | some slot =>
    cases slot with
    | stored v => exact lookup_of_child hc
    | element b => exact lookup_of_element hc

theorem splitLast?_append (path : List Segment) (s : Segment) :
    splitLast? (path ++ [s]) = some (path, s) := by
  induction path with
  | nil => rfl
  | cons t path ih =>
    have hne : path ++ [s] ≠ [] := List.append_ne_nil_of_right_ne_nil _ (List.cons_ne_nil _ _)
    rw [List.cons_append, splitLast?_cons hne, ih]
    rfl

theorem remove_append (path : List Segment) (s : Segment) :
    remove (path ++ [s]) = modifyAt (removeChild s) path := by
  funext root
  rw [remove, splitLast?_append]

/-- A change along a path leaves alone what lies elsewhere. -/
theorem modifyAt_kept (f : Nbt → Option β × Nbt) (hout : ¬places root other <+: places root path)
    (hin : ¬places root path <+: places root other) :
    lookup (modifyAt f path root).2 other = lookup root other := by
  -- The induction is along the path of the change; the other one may go with it for a while.
  induction path generalizing root other with
  | nil => exact absurd List.nil_prefix hin
  | cons s path ih =>
    by_cases hc : ∃ v, root.child? s = some (.stored v)
    · obtain ⟨v, hv⟩ := hc
      obtain ⟨changed, root', hset, hmodify⟩ := modifyAt_cons f path hv
      rw [hmodify]
      cases other with
      | nil => exact absurd List.nil_prefix hout
      | cons t rest =>
        by_cases heq : root.placeOf t = root.placeOf s
        · have hct : root.child? t = some (.stored v) := (child?_congr heq).trans hv
          have hct' : root'.child? t = some (.stored (modifyAt f path v).2) := by
            rw [child?_congr (t := s) (by rw [hset.placeOf, hset.placeOf, heq])]
            exact hset.child?_of_stored hv
          rw [places, places, heq, valueAt, valueAt, hct, hv] at hout hin
          rw [lookup_of_child hct, lookup_of_child hct']
          exact ih (fun hp => hout (List.cons_prefix_cons.2 ⟨rfl, hp⟩))
            fun hp => hin (List.cons_prefix_cons.2 ⟨rfl, hp⟩)
        · exact lookup_congr (hset.child?_of_ne heq)
    · rw [modifyAt_cons_none f fun v hv => hc ⟨v, hv⟩]

/-- A change along a path, by what it does to what lies there. -/
theorem modifyAt_of_eq {b : Option β} (h : lookup root path = some (.stored v))
    (hf : f v = (b, v')) : ∃ root', modifyAt f path root = (b, root') ∧
      lookup root' path = some (.stored v') := by
  obtain ⟨hreport, hfound⟩ := modifyAt_of_stored f h
  rw [hf] at hreport hfound
  exact ⟨(modifyAt f path root).2, Prod.ext hreport rfl, hfound⟩

/-- A change that makes no difference where it is made makes none at all. -/
theorem modifyAt_eq_self (h : lookup root path = some (.stored v)) (hf : (f v).2 = v) :
    modifyAt f path root = ((f v).1, root) := by
  induction path generalizing root with
  | nil =>
    cases h
    exact Prod.ext rfl hf
  | cons s rest ih =>
    obtain ⟨w, hw, hrest⟩ := exists_child_of_lookup h
    obtain ⟨changed, root', hset, hmodify⟩ := modifyAt_cons f rest hw
    have hsame := congrArg Prod.snd (ih hrest)
    rw [hmodify, (modifyAt_of_stored f hrest).1]
    exact congrArg _ (not_not.1 fun hne => (hset.ne_iff hw).1 hne hsame)

/-- A change that is taken back where it is made is taken back as a whole. -/
theorem modifyAt_back (h : lookup root path = some (.stored v)) (hg : (g (f v).2).2 = v) :
    modifyAt g path (modifyAt f path root).2 = ((g (f v).2).1, root) := by
  induction path generalizing root with
  | nil =>
    cases h
    exact Prod.ext rfl hg
  | cons s rest ih =>
    obtain ⟨w, hw, hrest⟩ := exists_child_of_lookup h
    obtain ⟨changed, root₁, hset, hmodify⟩ := modifyAt_cons f rest hw
    obtain ⟨changed', root₂, hset', hmodify'⟩ := modifyAt_cons g rest (hset.child?_of_stored hw)
    rw [hmodify, hmodify']
    rw [ih hrest] at hset' ⊢
    obtain ⟨changed'', hset''⟩ := hset.again hset'
    exact congrArg _ (not_not.1 fun hne => (hset''.ne_iff hw).1 hne rfl)

/-! ## Elements -/

/-- What lies at a position of a list or a byte array. -/
def slotAt? : Nbt → Nat → Option Slot
  | list items, j => items[j]?.map .stored
  | bytes elements, j => elements[j]?.map .element
  | _, _ => none

theorem slotAt?_list (items : Array Nbt) (j : Nat) :
    (list items).slotAt? j = items[j]?.map .stored :=
  rfl

theorem slotAt?_bytes (elements : Array Int8) (j : Nat) :
    (bytes elements).slotAt? j = elements[j]?.map .element :=
  rfl

theorem child?_index (root : Nbt) (i : Int32) :
    root.child? (.index i) = (position? i root.elementCount).bind root.slotAt? := by
  cases root with
  | list items => exact child?_item
  | bytes elements => exact child?_element
  | _ => exact (Option.bind_fun_none (position? i 0)).symm

theorem slotAt?_isSome (h : j < root.elementCount) : ∃ slot, root.slotAt? j = some slot := by
  cases root with
  | list items => exact ⟨_, congrArg (Option.map Slot.stored) (Array.getElem?_eq_getElem h)⟩
  | bytes elements => exact ⟨_, congrArg (Option.map Slot.element) (Array.getElem?_eq_getElem h)⟩
  | _ => exact absurd h (Nat.not_lt_zero _)

/-- Indices that count to positions where the same lies mean the same element, or both none. -/
theorem child?_index_congr (hi : counted i root.elementCount = (m : Int))
    (hi' : counted i' root'.elementCount = (n : Int))
    (hlt : m < root.elementCount ↔ n < root'.elementCount)
    (hslot : m < root.elementCount → root.slotAt? m = root'.slotAt? n) :
    root.child? (.index i) = root'.child? (.index i') := by
  rw [child?_index, child?_index, position?_eq, position?_eq, hi, hi']
  by_cases hm : m < root.elementCount
  · have hn := hlt.1 hm
    rw [if_pos (by omega), if_pos (by omega)]
    exact hslot hm
  · have hn := mt hlt.2 hm
    rw [if_neg (by omega), if_neg (by omega)]
    rfl

/-! ## Appending to a value -/

/-- A list takes every value behind its elements, a byte array every number. -/
def Collects (value : Nbt) : Nbt → Prop
  | list _ => True
  | bytes _ => ∃ n, value.number? = some n
  | _ => False

/-- Appending a value takes a list or a byte array to a longer one. -/
inductive Gains (value : Nbt) : Nbt → Nbt → Prop where
  | item (items : Array Nbt) : Gains value (list items) (list (items.push value))
  | element {b : Int8} (elements : Array Int8) (hb : toElement? value = some b) :
    Gains value (bytes elements) (bytes (elements.push b))

theorem push_of_collects (h : Collects value container) :
    ∃ container', Gains value container container' ∧
      push value container = (some (), container') := by
  cases container with
  | list items => exact ⟨_, .item items, rfl⟩
  | bytes elements =>
    obtain ⟨n, hn⟩ := h
    obtain ⟨b, hb⟩ := exists_toElement? hn
    exact ⟨_, .element elements hb, by rw [push, hb]⟩
  | _ => exact h.elim

theorem push_of_not_collects (h : ¬Collects value container) :
    push value container = (none, container) := by
  cases container with
  | list items => exact absurd trivial h
  | bytes elements =>
    have hnone : toElement? value = none := by
      rw [Option.eq_none_iff_forall_not_mem]
      intro b hb
      obtain ⟨n, hn, -⟩ := toInt_of_toElement? hb
      exact h ⟨n, hn⟩
    rw [push, hnone]
  | _ => rfl

namespace Gains

theorem elementCount (h : Gains value container container') :
    container'.elementCount = container.elementCount + 1 := by
  cases h with
  | item => exact Array.size_push _
  | element => exact Array.size_push _

theorem slotAt?_of_lt (h : Gains value container container') (hm : m < container.elementCount) :
    container'.slotAt? m = container.slotAt? m := by
  cases h with
  | item items =>
    have hne : m ≠ items.size := Nat.ne_of_lt hm
    rw [slotAt?_list, slotAt?_list, Array.getElem?_push, if_neg hne]
  | element elements =>
    have hne : m ≠ elements.size := Nat.ne_of_lt hm
    rw [slotAt?_bytes, slotAt?_bytes, Array.getElem?_push, if_neg hne]

/-- What is appended comes last. -/
theorem exists_slotAt? (h : Gains value container container') :
    ∃ slot, Shows container value slot ∧ container'.slotAt? container.elementCount = some slot := by
  cases h with
  | item items =>
    exact ⟨_, .stored (fun _ h => nomatch h),
      congrArg (Option.map Slot.stored) Array.getElem?_push_size⟩
  | element elements hb =>
    obtain ⟨n, hn, hbyte⟩ := toInt_of_toElement? hb
    exact ⟨_, .element hn hbyte, congrArg (Option.map Slot.element) Array.getElem?_push_size⟩

/-- Removing the last element takes the append back. -/
theorem removeChild_last (h : Gains value container container') :
    removeChild (.index (-1)) container' = (some (), container) := by
  have herase : ∀ {α : Type} (xs : Array α) (x : α),
      (xs.push x).eraseIdxIfInBounds xs.size = xs := by
    intro α xs x
    apply Array.toList_inj.1
    rw [Array.toList_eraseIdxIfInBounds, Array.toList_push, ← Array.length_toList,
      List.eraseIdx_append_of_length_le (Nat.le_refl _), Nat.sub_self]
    exact List.append_nil _
  cases h with
  | item items =>
    have hp : position? (-1) (items.push value).size = some items.size := by
      rw [Array.size_push]
      exact position?_last (Nat.succ_pos _)
    simp only [removeChild, hp, herase]
  | @element b elements =>
    have hp : position? (-1) (elements.push b).size = some elements.size := by
      rw [Array.size_push]
      exact position?_last (Nat.succ_pos _)
    simp only [removeChild, hp, herase]

end Gains

/-! ## Removing from a value -/

/-- A list or a byte array without the element at a position. -/
def without (j : Nat) : Nbt → Nbt
  | list items => list (items.eraseIdxIfInBounds j)
  | bytes elements => bytes (elements.eraseIdxIfInBounds j)
  | v => v

theorem removeChild_index (hp : position? i container.elementCount = some j) :
    removeChild (.index i) container = (some (), container.without j) := by
  cases container with
  | list items =>
    have hp' : position? i items.size = some j := hp
    simp only [removeChild, hp', without]
  | bytes elements =>
    have hp' : position? i elements.size = some j := hp
    simp only [removeChild, hp', without]
  | _ => exact absurd (lt_of_position? hp) (Nat.not_lt_zero _)

theorem elementCount_without (h : j < container.elementCount) :
    (container.without j).elementCount + 1 = container.elementCount := by
  have hsize : ∀ {α : Type} (xs : Array α), j < xs.size →
      (xs.eraseIdxIfInBounds j).size + 1 = xs.size := by
    intro α xs hj
    rw [← Array.length_toList, Array.toList_eraseIdxIfInBounds, List.length_eraseIdx_of_lt hj,
      Array.length_toList]
    omega
  cases container with
  | list items => exact hsize items h
  | bytes elements => exact hsize elements h
  | _ => exact absurd h (Nat.not_lt_zero _)

/-- What lies behind the removed element moves up by one. -/
theorem slotAt?_without : (container.without j).slotAt? m =
    if m < j then container.slotAt? m else container.slotAt? (m + 1) := by
  have herase : ∀ {α : Type} (xs : Array α), (xs.eraseIdxIfInBounds j)[m]? =
      if m < j then xs[m]? else xs[m + 1]? := by
    intro α xs
    rw [← Array.getElem?_toList, Array.toList_eraseIdxIfInBounds, List.getElem?_eraseIdx,
      Array.getElem?_toList, Array.getElem?_toList]
  cases container with
  | list items =>
    rw [without, slotAt?_list, herase]
    split <;> rfl
  | bytes elements =>
    rw [without, slotAt?_bytes, herase]
    split <;> rfl
  | _ => exact (ite_self none).symm

/-- Something is removed exactly if it is there, and otherwise nothing changes. -/
theorem removeChild_eq (container : Nbt) (s : Segment) :
    (∃ slot, container.child? s = some slot ∧ (removeChild s container).1 = some ()) ∨
      container.child? s = none ∧ removeChild s container = (none, container) := by
  cases s with
  | key k =>
    cases container with
    | compound fields =>
      cases hk : Fields.get? k fields with
      | none => exact .inr ⟨by rw [child?_field, hk]; rfl, by simp only [removeChild, hk]⟩
      | some v => exact .inl ⟨_, by rw [child?_field, hk]; rfl, by simp only [removeChild, hk]⟩
    | _ => exact .inr ⟨rfl, rfl⟩
  | index i =>
    rw [child?_index]
    cases hp : position? i container.elementCount with
    | some j =>
      obtain ⟨slot, hslot⟩ := slotAt?_isSome (lt_of_position? hp)
      exact .inl ⟨slot, hslot, congrArg Prod.fst (removeChild_index hp)⟩
    | none =>
      refine .inr ⟨rfl, ?_⟩
      cases container with
      | list items =>
        have hp' : position? i items.size = none := hp
        simp only [removeChild, hp']
      | bytes elements =>
        have hp' : position? i elements.size = none := hp
        simp only [removeChild, hp']
      | _ => rfl

/-! ## Appending along a path -/

/-- What appending does where the path leads. -/
def pushAt (value node : Nbt) : Option Bool × Nbt :=
  (some (push value node).1.isSome, (push value node).2)

theorem append_eq (path : List Segment) (value root : Nbt) :
    append path value root = modifyAt (pushAt value) path root :=
  rfl

/-- What becomes of a value where another one is appended to a list or a byte array in it. -/
structure Appended (root : Nbt) (path : List Segment) (container value root' : Nbt) : Prop where
  /-- The list has one element more. -/
  found : ∃ container', Gains value container container' ∧
    lookup root' path = some (.stored container')
  /-- The last one is what has been appended, whole or as a byte. -/
  last : ∃ slot, Shows container value slot ∧ ∀ i : Int32,
    i = -1 ∨ i.toInt = container.elementCount → lookup root' (path ++ [.index i]) = some slot
  /-- In front of it are the elements that were there, counted from either end. -/
  front : ∀ (i i' : Int32) (rest : List Segment), 0 ≤ counted i' container.elementCount →
    counted i' container.elementCount < container.elementCount →
    counted i (container.elementCount + 1) = counted i' container.elementCount →
    lookup root' (path ++ .index i :: rest) = lookup root (path ++ .index i' :: rest)
  /-- What has been appended goes again when the last element is removed, and all is as it was. -/
  popped : remove (path ++ [.index (-1)]) root' = (some (), root)
  /-- A path that leads neither to the list nor through it leads to what it led to. -/
  kept : ∀ other, ¬places root other <+: places root path →
    ¬places root path <+: places root other → lookup root' other = lookup root other

theorem counted_last (h : i = -1 ∨ i.toInt = n) : counted i (n + 1) = n := by
  unfold counted
  obtain rfl | h := h
  · have hneg : (-1 : Int32) < 0 := by decide
    have hint : (-1 : Int32).toInt = -1 := by decide
    rw [if_pos hneg, hint]
    omega
  · have hneg : ¬i < 0 := by
      rw [Int32.lt_iff_toInt_lt, h, Int32.toInt_zero]
      omega
    rw [if_neg hneg, h]

theorem append_of_collects (h : lookup root path = some (.stored container))
    (hc : Collects value container) : ∃ root', append path value root = (some true, root') ∧
      Appended root path container value root' := by
  obtain ⟨container', hgains, hpush⟩ := push_of_collects hc
  have hcount := hgains.elementCount
  have hstep : pushAt value container = (some true, container') := by
    rw [pushAt, hpush]
    rfl
  obtain ⟨root', hmodify, hfound⟩ := modifyAt_of_eq h hstep
  obtain rfl : (modifyAt (pushAt value) path root).2 = root' := congrArg Prod.snd hmodify
  refine ⟨_, hmodify, ⟨container', hgains, hfound⟩, ?_, ?_, ?_, ?_⟩
  · obtain ⟨slot, hshows, hslot⟩ := hgains.exists_slotAt?
    refine ⟨slot, hshows, fun i hi => ?_⟩
    have hp : position? i container'.elementCount = some container.elementCount := by
      rw [hcount, position?_eq, counted_last hi, if_pos (by omega), Int.toNat_natCast]
    rw [lookup_append_of_stored hfound, lookup_singleton, child?_index, hp, Option.bind_some, hslot]
  · intro i i' rest hlow hhigh hi
    rw [lookup_append_of_stored hfound, lookup_append_of_stored h]
    obtain ⟨m, hm⟩ := Int.eq_ofNat_of_zero_le hlow
    rw [← hcount] at hi
    refine lookup_congr (child?_index_congr (hi.trans hm) hm (by omega) fun _ => ?_)
    exact hgains.slotAt?_of_lt (by omega)
  · have hundo : removeChild (.index (-1)) (pushAt value container).2 = (some (), container) := by
      rw [hstep, hgains.removeChild_last]
    rw [remove_append, modifyAt_back h (congrArg Prod.snd hundo), hundo]
  · exact fun other hout hin => modifyAt_kept _ hout hin

theorem append_of_not_collects (h : lookup root path = some (.stored container))
    (hc : ¬Collects value container) : append path value root = (some false, root) := by
  have hstep : pushAt value container = (some false, container) := by
    rw [pushAt, push_of_not_collects hc]
    rfl
  rw [append_eq, modifyAt_eq_self h (congrArg Prod.snd hstep), hstep]

/-! ## Removing along a path -/

/-- What becomes of a value where an element is removed from a list or a byte array in it. -/
structure Removed (root : Nbt) (path : List Segment) (container : Nbt) (j : Nat) (root' : Nbt) :
    Prop where
  /-- The list has one element less. -/
  found : lookup root' path = some (.stored (container.without j))
  shorter : (container.without j).elementCount + 1 = container.elementCount
  /-- In front of it are the elements that were there, counted from either end. -/
  front : ∀ (i i' : Int32) (rest : List Segment), 0 ≤ counted i' container.elementCount →
    counted i' container.elementCount < j →
    counted i (container.elementCount - 1) = counted i' container.elementCount →
    lookup root' (path ++ .index i :: rest) = lookup root (path ++ .index i' :: rest)
  /-- The elements behind it have moved up by one. -/
  behind : ∀ (i i' : Int32) (rest : List Segment), j ≤ counted i (container.elementCount - 1) →
    counted i' container.elementCount = counted i (container.elementCount - 1) + 1 →
    lookup root' (path ++ .index i :: rest) = lookup root (path ++ .index i' :: rest)
  /-- A path that leads neither to the list nor through it leads to what it led to. -/
  kept : ∀ other, ¬places root other <+: places root path →
    ¬places root path <+: places root other → lookup root' other = lookup root other

theorem remove_of_position? (h : lookup root path = some (.stored container))
    (hp : position? i container.elementCount = some j) :
    ∃ root', remove (path ++ [.index i]) root = (some (), root') ∧
      Removed root path container j root' := by
  have hj := lt_of_position? hp
  have hstep := removeChild_index hp
  have hcount := elementCount_without hj
  obtain ⟨root', hmodify, hfound⟩ := modifyAt_of_eq h hstep
  obtain rfl : (modifyAt (removeChild (.index i)) path root).2 = root' := congrArg Prod.snd hmodify
  rw [remove_append]
  refine ⟨_, hmodify, hfound, hcount, ?_, ?_, ?_⟩
  · intro k k' rest hlow hhigh hk
    rw [lookup_append_of_stored hfound, lookup_append_of_stored h]
    obtain ⟨m, hm⟩ := Int.eq_ofNat_of_zero_le hlow
    have hsize : container.elementCount - 1 = (container.without j).elementCount := by omega
    rw [hsize] at hk
    refine lookup_congr (child?_index_congr (hk.trans hm) hm (by omega) fun _ => ?_)
    rw [slotAt?_without, if_pos (by omega)]
  · intro k k' rest hlow hk
    rw [lookup_append_of_stored hfound, lookup_append_of_stored h]
    have hsize : container.elementCount - 1 = (container.without j).elementCount := by omega
    rw [hsize] at hlow hk
    obtain ⟨m, hm⟩ := Int.eq_ofNat_of_zero_le (Int.le_trans (Int.natCast_nonneg j) hlow)
    have hk' : counted k' container.elementCount = ((m + 1 : Nat) : Int) := by omega
    refine lookup_congr (child?_index_congr hm hk' (by omega) fun _ => ?_)
    rw [slotAt?_without, if_neg (by omega)]
  · exact fun other hout hin => modifyAt_kept _ hout hin

/-- A removal succeeds exactly where something is there to be removed, and otherwise it changes
    nothing. -/
theorem remove_cases (root : Nbt) (path : List Segment) :
    (path ≠ [] ∧ (∃ slot, lookup root path = some slot) ∧ (remove path root).1 = some ()) ∨
      (path = [] ∨ lookup root path = none) ∧ remove path root = (none, root) := by
  obtain rfl | ⟨parents, s, rfl⟩ := List.eq_nil_or_concat path
  · exact .inr ⟨.inl rfl, rfl⟩
  rw [List.concat_eq_append, remove_append]
  by_cases hparent : ∃ container, lookup root parents = some (.stored container)
  · obtain ⟨container, hcontainer⟩ := hparent
    rw [lookup_append_of_stored hcontainer, lookup_singleton]
    obtain ⟨slot, hslot, hreport⟩ | ⟨hnone, hsame⟩ := removeChild_eq container s
    · refine .inl ⟨List.append_ne_nil_of_right_ne_nil _ (List.cons_ne_nil _ _), ⟨slot, hslot⟩, ?_⟩
      rw [(modifyAt_of_stored _ hcontainer).1, hreport]
    · refine .inr ⟨.inr hnone, ?_⟩
      rw [modifyAt_eq_self hcontainer (congrArg Prod.snd hsame), hsame]
  · have hnot : ∀ v, lookup root parents ≠ some (.stored v) := fun v hv => hparent ⟨v, hv⟩
    exact .inr ⟨.inr (lookup_append_of_not_stored hnot (List.cons_ne_nil _ _)),
      modifyAt_of_not_stored _ hnot⟩

/-- **Lists as stacks.**  Appending succeeds exactly where a list or a byte array takes the value,
    and removing exactly where something is there to be removed; otherwise nothing changes.  What is
    appended is the last element, and removing the last element takes the append back as a whole.
    Removing an element moves those behind it up by one.  Neither touches anything outside the list:
    a path that leads neither to it nor through it leads to what it led to. -/
theorem lists_are_stacks (root value : Nbt) (path : List Segment) :
    ((∀ container, lookup root path ≠ some (.stored container)) →
      append path value root = (none, root)) ∧
    (∀ container, lookup root path = some (.stored container) →
      (Collects value container → ∃ root', append path value root = (some true, root') ∧
        Appended root path container value root') ∧
      (¬Collects value container → append path value root = (some false, root)) ∧
      ∀ (i : Int32) (j : Nat), counted i container.elementCount = j → j < container.elementCount →
        ∃ root', remove (path ++ [.index i]) root = (some (), root') ∧
          Removed root path container j root') ∧
    ((∃ root', remove path root = (some (), root')) ↔
      path ≠ [] ∧ ∃ slot, lookup root path = some slot) ∧
    ∀ root', remove path root = (none, root') → root' = root := by
  refine ⟨modifyAt_of_not_stored _, fun container h => ⟨append_of_collects h,
    append_of_not_collects h, fun i j hi hj => remove_of_position? h ?_⟩, ?_, ?_⟩
  · rw [position?_eq, hi, if_pos (by omega), Int.toNat_natCast]
  -- Removing either finds a slot and reports success, or leaves the root as it is.
  · obtain ⟨hne, hslot, hreport⟩ | ⟨hnone, hsame⟩ := remove_cases root path
    · exact ⟨fun _ => ⟨hne, hslot⟩, fun _ => ⟨_, Prod.ext hreport rfl⟩⟩
    · rw [hsame]
      constructor
      · rintro ⟨root', h⟩
        cases h
      · rintro ⟨hne, slot, hslot⟩
        cases ((hnone.resolve_left hne).symm.trans hslot)
  · intro root' hremove
    obtain ⟨-, -, hreport⟩ | ⟨-, hsame⟩ := remove_cases root path
    · rw [hremove] at hreport
      cases hreport
    · exact (congrArg Prod.snd (hsame.symm.trans hremove)).symm

/-- A byte array inside a list takes 200 as -56, behind its three bytes; what it was again without
    the last byte is what it was before. -/
theorem lists_are_stacks_bytes : ∃ root',
    append [.key "pages", .index (-1)] (.int 200)
      (compound [("pages", list #[.emptyList, bytes #[0, -1, 5]])]) = (some true, root') ∧
    lookup root' [.key "pages", .index (-1), .index 3] = some (.element (-56)) ∧
    remove [.key "pages", .index (-1), .index (-1)] root' =
      (some (), compound [("pages", list #[.emptyList, bytes #[0, -1, 5]])]) := by
  obtain ⟨hcollects, -, -⟩ :=
    (lists_are_stacks (compound [("pages", list #[.emptyList, bytes #[0, -1, 5]])]) (.int 200)
      [.key "pages", .index (-1)]).2.1 (bytes #[0, -1, 5]) (by rfl)
  obtain ⟨root', happend, h⟩ := hcollects ⟨200, rfl⟩
  obtain ⟨slot, hshows, hlast⟩ := h.last
  cases hshows with
  | stored hne => exact absurd rfl (hne _)
  | @element elements value n b hn hb =>
    cases hn
    obtain rfl : b = -56 := Int8.toInt_inj.1 hb
    exact ⟨root', happend, hlast 3 (.inr (by decide)), h.popped⟩

end WasmPack.Nbt
