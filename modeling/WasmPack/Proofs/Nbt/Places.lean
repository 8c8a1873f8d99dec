/-
  WasmPack.Proofs.Nbt.Places

  What lies one step down in a value, and what becomes of it when a child is
  replaced.  Different segments can mean the same child: an index may count from
  the end.  So segments are compared by the place they mean in the value at hand.
-/
import WasmPack.Proofs.State.Lists

namespace WasmPack

/-! ## Fields -/

namespace Fields

variable {α : Type} {β : Type} {k : String} {v w : α} {fields : Fields α}

theorem insert_of_none (h : get? k fields = none) : insert k v fields = place k v fields := by
  rw [insert, modify_of_none h]

theorem insert_cons_self {e : String × α} (hk : e.1 = k) :
    insert k v (e :: fields) = (e.1, v) :: fields := by
  rw [insert, modify_cons, if_pos hk]

theorem insert_cons_of_ne {e : String × α} (hk : e.1 ≠ k) (h : get? k fields = some w) :
    insert k v (e :: fields) = e :: insert k v fields := by
  have hsome := modify_of_some (f := fun _ => (some (), v)) h
  rw [insert, insert, modify_cons, if_neg hk]
  cases hm : modify k (fun _ => (some (), v)) fields with
  | mk b fields' =>
    rw [hm] at hsome
    cases hsome
    rfl

/-- A change under a name that has a value sets the name to what the value becomes. -/
theorem modify_eq_insert {f : α → Option β × α} (h : get? k fields = some v) :
    modify k f fields = ((f v).1, insert k (f v).2 fields) := by
  induction fields with
  | nil => cases h
  | cons e fields ih =>
    rw [get?_cons] at h
    rw [modify_cons]
    split at h
    · rename_i hk
      cases h
      rw [if_pos hk, insert_cons_self hk]
    · rename_i hk
      rw [if_neg hk, ih h, insert_cons_of_ne hk h]

theorem insert_eq_self (h : get? k fields = some v) : insert k v fields = fields := by
  induction fields with
  | nil => cases h
  | cons e fields ih =>
    rw [get?_cons] at h
    split at h
    · rename_i hk
      cases h
      exact insert_cons_self hk
    · rename_i hk
      rw [insert_cons_of_ne hk h, ih h]

/-- Of two values set for a name one after the other, the second stays. -/
theorem insert_insert : insert k w (insert k v fields) = insert k w fields := by
  cases h : get? k fields with
  | none =>
    rw [insert_of_none h, insert_of_none h]
    induction fields with
    | nil => exact insert_cons_self rfl
    | cons e fields ih =>
      rw [place_cons, place_cons]
      split
      · exact insert_cons_self rfl
      · rw [get?_cons] at h
        split at h
        · cases h
        · rename_i hk
          rw [insert_cons_of_ne hk (get?_place_self h), ih h]
  | some u =>
    induction fields with
    | nil => cases h
    | cons e fields ih =>
      rw [get?_cons] at h
      split at h
      · rename_i hk
        rw [insert_cons_self hk, insert_cons_self hk]
        exact insert_cons_self hk
      · rename_i hk
        rw [insert_cons_of_ne hk h, insert_cons_of_ne hk h, insert_cons_of_ne hk get?_insert_self,
          ih h]

end Fields

namespace Nbt

variable {β : Type} {root root' v value : Nbt} {s t : Segment} {rest path : List Segment}
  {items : Array Nbt} {elements : Array Int8} {fields : List (String × Nbt)} {i : Int32} {j n : Nat}

/-! ## Places -/

/-- Where in a value a segment leads: to the field of a name, or to an element counted from the
    beginning. -/
inductive Place where
  | key (key : String)
  | index (index : Int)
deriving DecidableEq

/-- An index into so many elements, counted from the beginning. -/
def counted (i : Int32) (size : Nat) : Int := if i < 0 then size + i.toInt else i.toInt

/-- The number of elements of a list or a byte array. -/
def elementCount : Nbt → Nat
  | list items => items.size
  | bytes elements => elements.size
  | _ => 0

/-- The place that a segment means in a value.  Where there are no elements, an index is taken as it
    stands. -/
def placeOf (root : Nbt) : Segment → Place
  | .key k => .key k
  | .index i => .index (counted i root.elementCount)

/-- What lies one segment down, as a value; the empty list, which has no children, if nothing does. -/
def valueAt (root : Nbt) (s : Segment) : Nbt := ((root.child? s).map Slot.toNbt).getD emptyList

/-- The places that a path leads through. -/
def places (root : Nbt) : List Segment → List Place
  | [] => []
  | s :: rest => root.placeOf s :: places (root.valueAt s) rest

theorem position?_eq : position? i n =
    if 0 ≤ counted i n ∧ counted i n < n then some (counted i n).toNat else none :=
  rfl

theorem counted_of_position? (h : position? i n = some j) : counted i n = j := by
  rw [position?_eq] at h
  split at h
  · have hj := Option.some.inj h
    omega
  · cases h

theorem position?_congr {i' : Int32} (h : counted i n = counted i' n) :
    position? i n = position? i' n := by
  rw [position?_eq, position?_eq, h]

/-- An index that means another place means another element, or none. -/
theorem position?_ne {i' : Int32} (h : counted i' n ≠ counted i n) (hp : position? i n = some j) :
    position? i' n ≠ some j :=
  fun hp' => h ((counted_of_position? hp').trans (counted_of_position? hp).symm)

/-! ## Children -/

theorem child?_field {k : String} :
    child? (compound fields) (.key k) = (Fields.get? k fields).map .stored :=
  rfl

theorem child?_item : child? (list items) (.index i) =
    (position? i items.size).bind fun j => items[j]?.map .stored := by
  show (do return Slot.stored (← items[← position? i items.size]?)) = _
  cases position? i items.size with
  | none => rfl
  | some j =>
    show (do return Slot.stored (← items[j]?)) = items[j]?.map .stored
    cases items[j]? <;> rfl

theorem child?_element : child? (bytes elements) (.index i) =
    (position? i elements.size).bind fun j => elements[j]?.map .element := by
  show (do return Slot.element (← elements[← position? i elements.size]?)) = _
  cases position? i elements.size with
  | none => rfl
  | some j =>
    show (do return Slot.element (← elements[j]?)) = elements[j]?.map .element
    cases elements[j]? <;> rfl

/-- No value is stored in a byte array. -/
theorem child?_bytes_ne (elements : Array Int8) (s : Segment) (v : Nbt) :
    child? (bytes elements) s ≠ some (.stored v) := by
  intro h
  cases s with
  | key k => cases h
  | index i =>
    rw [child?_element] at h
    obtain ⟨j, -, h⟩ := Option.bind_eq_some_iff.1 h
    obtain ⟨b, -, h⟩ := Option.map_eq_some_iff.1 h
    cases h

/-- Segments that mean the same place have the same child. -/
theorem child?_congr (h : root.placeOf s = root.placeOf t) : root.child? s = root.child? t := by
  cases s with
  | key k =>
    cases t with
    | key k' => rw [Place.key.inj h]
    | index i => cases h
  | index i =>
    cases t with
    | key k => cases h
    | index i' =>
      have hcounted := Place.index.inj h
      cases root with
      | list items => rw [child?_item, child?_item, position?_congr (n := items.size) hcounted]
      | bytes elements =>
        rw [child?_element, child?_element, position?_congr (n := elements.size) hcounted]
      | _ => rfl

theorem lookup_congr {s' : Segment} (h : root.child? s = root'.child? s') :
    lookup root (s :: rest) = lookup root' (s' :: rest) := by
  unfold lookup
  rw [h]

/-! ## Numbers -/

/-- The number that a value is, if it is one. -/
def number? : Nbt → Option Int
  | int n => some n.toInt
  | byte b => some b.toInt
  | _ => none

/-- A byte array keeps the low byte of a number. -/
theorem toInt_of_toElement? {b : Int8} (h : toElement? value = some b) :
    ∃ n, value.number? = some n ∧ b.toInt = n.bmod 256 := by
  cases value with
  | int n =>
    cases h
    exact ⟨n.toInt, rfl, Int32.toInt_toInt8 n⟩
  | byte b' =>
    cases h
    exact ⟨b.toInt, rfl, (Int8.toInt_bmod b).symm⟩
  | _ => cases h

/-- It takes every number. -/
theorem exists_toElement? {m : Int} (h : value.number? = some m) : ∃ b, toElement? value = some b := by
  cases value with
  | int n => exact ⟨_, rfl⟩
  | byte b => exact ⟨_, rfl⟩
  | _ => cases h

/-! ## Replacing a child -/

/-- Setting the child of a segment takes one value to another, and changes it or not. -/
inductive Sets : Segment → Nbt → Nbt → Bool → Nbt → Prop where
  | field (k : String) (value : Nbt) (fields : List (String × Nbt)) :
    Sets (.key k) value (compound fields) (decide (Fields.get? k fields ≠ some value))
      (compound (Fields.insert k value fields))
  | item {i : Int32} {items : Array Nbt} {j : Nat} (value : Nbt)
    (hp : position? i items.size = some j) :
    Sets (.index i) value (list items) (decide (items[j]? ≠ some value))
      (list (items.setIfInBounds j value))
  | element {i : Int32} {elements : Array Int8} {j : Nat} {value : Nbt} {b : Int8}
    (hp : position? i elements.size = some j) (hb : toElement? value = some b) :
    Sets (.index i) value (bytes elements) (decide (elements[j]? ≠ some b))
      (bytes (elements.setIfInBounds j b))

theorem writeChild_eq_some_iff {changed : Bool} :
    writeChild s value root = (some changed, root') ↔ Sets s value root changed root' := by
  constructor
  · intro h
    unfold writeChild at h
    split at h
    · split at h
      · cases h
        exact .field ..
      · cases h
    · split at h
      · split at h
        · rename_i hp
          cases h
          exact .item value hp
        · cases h
      · cases h
    · split at h
      · split at h
        · rename_i hp hb
          cases h
          exact .element hp hb
        · cases h
      · cases h
    · cases h
  · intro h
    cases h with
    | field => rfl
    | item value hp => simp only [writeChild, hp]
    | element hp hb => simp only [writeChild, hp, hb]

/-- What cannot be set leaves the value as it was. -/
theorem eq_of_writeChild_eq_none (h : writeChild s value root = (none, root')) : root' = root := by
  unfold writeChild at h
  split at h
  · split at h
    · cases h
    · exact (Prod.ext_iff.1 h).2.symm
  · split at h
    · split at h
      · cases h
      · exact (Prod.ext_iff.1 h).2.symm
    · exact (Prod.ext_iff.1 h).2.symm
  · split at h
    · split at h
      · cases h
      · exact (Prod.ext_iff.1 h).2.symm
    · exact (Prod.ext_iff.1 h).2.symm
  · exact (Prod.ext_iff.1 h).2.symm

/-- A segment of the value can be set: any field, or an element that is there.  A byte array takes
    numbers only. -/
def Takes (root : Nbt) (s : Segment) (value : Nbt) : Prop :=
  match root with
  | compound _ => ∃ k, s = .key k
  | list items => ∃ i, s = .index i ∧ 0 ≤ counted i items.size ∧ counted i items.size < items.size
  | bytes elements => (∃ n, value.number? = some n) ∧
    ∃ i, s = .index i ∧ 0 ≤ counted i elements.size ∧ counted i elements.size < elements.size
  | _ => False

theorem exists_position?_iff : (∃ j, position? i n = some j) ↔ 0 ≤ counted i n ∧ counted i n < n := by
  rw [position?_eq]
  split
  · rename_i h
    exact ⟨fun _ => h, fun _ => ⟨_, rfl⟩⟩
  · rename_i h
    exact ⟨(fun ⟨_, hj⟩ => nomatch hj), fun hc => absurd hc h⟩

theorem exists_sets_iff : (∃ changed root', Sets s value root changed root') ↔ root.Takes s value := by
  constructor
  · rintro ⟨changed, root', h⟩
    cases h with
    | field k => exact ⟨k, rfl⟩
    | item value hp => exact ⟨_, rfl, exists_position?_iff.1 ⟨_, hp⟩⟩
    | element hp hb =>
      obtain ⟨n, hn, -⟩ := toInt_of_toElement? hb
      exact ⟨⟨n, hn⟩, _, rfl, exists_position?_iff.1 ⟨_, hp⟩⟩
  · intro h
    cases root with
    | compound fields =>
      obtain ⟨k, rfl⟩ := h
      exact ⟨_, _, .field k value fields⟩
    | list items =>
      obtain ⟨i, rfl, hi⟩ := h
      obtain ⟨j, hp⟩ := exists_position?_iff.2 hi
      exact ⟨_, _, .item value hp⟩
    | bytes elements =>
      obtain ⟨⟨n, hn⟩, i, rfl, hi⟩ := h
      obtain ⟨j, hp⟩ := exists_position?_iff.2 hi
      obtain ⟨b, hb⟩ := exists_toElement? hn
      exact ⟨_, _, .element hp hb⟩
    | _ => exact h.elim

/-- What lies where a value has been set, by what it has been set in: the value itself, or in a byte
    array the low byte of the number that it is. -/
inductive Shows : Nbt → Nbt → Slot → Prop where
  | stored {container value : Nbt} (h : ∀ elements, container ≠ bytes elements) :
    Shows container value (.stored value)
  | element {elements : Array Int8} {value : Nbt} {n : Int} {b : Int8}
    (hn : value.number? = some n) (hb : b.toInt = n.bmod 256) :
    Shows (bytes elements) value (.element b)

/-- An array with an element set is another one exactly if the element is. -/
theorem setIfInBounds_ne_iff {α : Type} {xs : Array α} {x : α} (hj : j < xs.size) :
    xs.setIfInBounds j x ≠ xs ↔ xs[j]? ≠ some x := by
  refine not_congr ⟨fun h => ?_, fun h => ?_⟩
  · rw [← h, Array.getElem?_setIfInBounds_self, if_pos hj]
  · obtain ⟨hlt, rfl⟩ := Array.getElem?_eq_some_iff.1 h
    apply Array.ext_getElem?
    intro m
    rw [Array.getElem?_setIfInBounds]
    split
    · rename_i hm
      rw [← hm, h]
    · rfl

namespace Sets

variable {changed changed' : Bool} {root'' later : Nbt}

/-- Nothing is added to a list or a byte array, or removed from it. -/
theorem elementCount (h : Sets s value root changed root') :
    root'.elementCount = root.elementCount := by
  cases h with
  | field => rfl
  | item => exact Array.size_setIfInBounds
  | element => exact Array.size_setIfInBounds

/-- Every segment means the same place as before. -/
theorem placeOf (h : Sets s value root changed root') (t : Segment) :
    root'.placeOf t = root.placeOf t := by
  cases t with
  | key k => rfl
  | index i => exact congrArg (fun n => Place.index (counted i n)) h.elementCount

/-- At every other place lies what lay there. -/
theorem child?_of_ne (h : Sets s value root changed root')
    (hne : root.placeOf t ≠ root.placeOf s) : root'.child? t = root.child? t := by
  cases h with
  | field k value fields =>
    cases t with
    | key k' =>
      have hk : k' ≠ k := fun heq => hne (congrArg Place.key heq)
      rw [child?_field, child?_field, Fields.get?_insert_of_ne hk]
    | index i => rfl
  | @item i items j value hp =>
    cases t with
    | key k => rfl
    | index i' =>
      rw [child?_item, child?_item, Array.size_setIfInBounds]
      refine Option.bind_congr fun j' hj' => ?_
      have hj : j ≠ j' := by
        rintro rfl
        exact position?_ne (fun hc => hne (congrArg Place.index hc)) hp hj'
      rw [Array.getElem?_setIfInBounds_ne hj]
  | @element i elements j value b hp hb =>
    cases t with
    | key k => rfl
    | index i' =>
      rw [child?_element, child?_element, Array.size_setIfInBounds]
      refine Option.bind_congr fun j' hj' => ?_
      have hj : j ≠ j' := by
        rintro rfl
        exact position?_ne (fun hc => hne (congrArg Place.index hc)) hp hj'
      rw [Array.getElem?_setIfInBounds_ne hj]

/-- What has been set lies where it was set. -/
theorem exists_child? (h : Sets s value root changed root') :
    ∃ slot, Shows root value slot ∧ root'.child? s = some slot := by
  cases h with
  | field k value fields =>
    refine ⟨_, .stored (fun _ h => nomatch h), ?_⟩
    rw [child?_field, Fields.get?_insert_self]
    rfl
  | @item i items j value hp =>
    refine ⟨_, .stored (fun _ h => nomatch h), ?_⟩
    rw [child?_item, Array.size_setIfInBounds, hp, Option.bind_some,
      Array.getElem?_setIfInBounds_self, if_pos (lt_of_position? hp)]
    rfl
  | @element i elements j value b hp hb =>
    obtain ⟨n, hn, hbyte⟩ := toInt_of_toElement? hb
    refine ⟨_, .element hn hbyte, ?_⟩
    rw [child?_element, Array.size_setIfInBounds, hp, Option.bind_some,
      Array.getElem?_setIfInBounds_self, if_pos (lt_of_position? hp)]
    rfl

/-- The report says whether there is a change. -/
theorem changed_iff (h : Sets s value root changed root') : changed = true ↔ root' ≠ root := by
  cases h with
  | field k value fields =>
    rw [decide_eq_true_iff]
    refine not_congr ⟨fun h => by rw [Fields.insert_eq_self h], fun h => ?_⟩
    have hfields := Nbt.compound.inj h
    rw [← hfields]
    exact Fields.get?_insert_self
  | item value hp =>
    rw [decide_eq_true_iff, ← setIfInBounds_ne_iff (lt_of_position? hp)]
    exact not_congr ⟨congrArg list, Nbt.list.inj⟩
  | element hp hb =>
    rw [decide_eq_true_iff, ← setIfInBounds_ne_iff (lt_of_position? hp)]
    exact not_congr ⟨congrArg bytes, Nbt.bytes.inj⟩

/-- Setting a child twice is setting it to the second value. -/
theorem again (h : Sets s value root changed root') (h' : Sets s later root' changed' root'') :
    ∃ changed'', Sets s later root changed'' root'' := by
  cases h with
  | field k value fields =>
    cases h' with
    | field =>
      rw [Fields.insert_insert]
      exact ⟨_, .field k later fields⟩
  | @item i items j value hp =>
    cases h' with
    | item later hp' =>
      rw [Array.size_setIfInBounds, hp] at hp'
      cases hp'
      rw [Array.setIfInBounds_setIfInBounds]
      exact ⟨_, .item later hp⟩
  | @element i elements j value b hp hb =>
    cases h' with
    | element hp' hb' =>
      rw [Array.size_setIfInBounds, hp] at hp'
      cases hp'
      rw [Array.setIfInBounds_setIfInBounds]
      exact ⟨_, .element hp hb'⟩

/-- There is one way to set a child. -/
theorem unique (h : Sets s value root changed root') (h' : Sets s value root changed' root'') :
    root' = root'' :=
  (Prod.mk.inj ((writeChild_eq_some_iff.2 h).symm.trans (writeChild_eq_some_iff.2 h'))).2

/-- A value that replaces a stored one is stored itself. -/
theorem child?_of_stored (hset : Sets s value root changed root')
    (h : root.child? s = some (.stored v)) : root'.child? s = some (.stored value) := by
  obtain ⟨slot, hshows, hchild⟩ := hset.exists_child?
  cases hshows with
  | stored => exact hchild
  | element => exact absurd h (child?_bytes_ne _ _ v)

/-- A value that replaces a stored one makes a difference exactly if it is another one. -/
theorem ne_iff (hset : Sets s value root changed root') (h : root.child? s = some (.stored v)) :
    root' ≠ root ↔ value ≠ v := by
  constructor
  · rintro hne rfl
    refine hne ?_
    cases hset with
    | field k _ fields =>
      obtain ⟨w, hw, hv⟩ := Option.map_eq_some_iff.1 h
      cases hv
      rw [Fields.insert_eq_self hw]
    | item _ hp =>
      rw [child?_item, hp, Option.bind_some] at h
      obtain ⟨w, hw, hv⟩ := Option.map_eq_some_iff.1 h
      cases hv
      refine congrArg list (not_not.1 fun hne => ?_)
      exact (setIfInBounds_ne_iff (lt_of_position? hp)).1 hne hw
    | element => exact absurd h (child?_bytes_ne _ _ _)
  · rintro hne rfl
    have hchild := hset.child?_of_stored h
    rw [h] at hchild
    exact hne (Slot.stored.inj (Option.some.inj hchild)).symm

end Sets

/-- Where a value is stored, any value can be. -/
theorem exists_sets_of_stored (h : root.child? s = some (.stored v)) (value : Nbt) :
    ∃ changed root', Sets s value root changed root' := by
  cases s with
  | key k =>
    cases root with
    | compound fields => exact ⟨_, _, .field k value fields⟩
    | _ => cases h
  | index i =>
    cases root with
    | list items =>
      rw [child?_item] at h
      obtain ⟨j, hp, -⟩ := Option.bind_eq_some_iff.1 h
      exact ⟨_, _, .item value hp⟩
    | bytes elements => exact absurd h (child?_bytes_ne elements _ v)
    | _ => cases h

end Nbt

end WasmPack
