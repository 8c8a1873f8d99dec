/-
  WasmPack.Proofs.State.Lists

  Lists inside values: what an index means, and what reading, writing, appending
  and removing do to the elements.
-/
import Mathlib.Algebra.Ring.Int.Defs
import Mathlib.Algebra.Ring.Nat
import Mathlib.Data.List.InsertIdx
import WasmPack.Proofs.State.Access

namespace WasmPack

/-- A number of the upper half of the range counts as negative where signed numbers are. -/
theorem toInt_toInt32 (n : UInt32) :
    n.toInt32.toInt = if n.toNat < 2 ^ 31 then (n.toNat : Int) else n.toNat - 2 ^ 32 := by
  show n.toBitVec.toInt = _
  rw [BitVec.toInt_eq_toNat_cond]
  have : n.toBitVec.toNat = n.toNat := rfl
  rw [this]
  split <;> split <;> first | rfl | omega

namespace Nbt

variable {i : Int32} {j n : Nat} {items : Array Nbt} {rest : List Segment} {value v v' : Nbt}

/-! ## Indices -/

theorem position?_of_lt (hi : i.toInt = j) (hj : j < n) : position? i n = some j := by
  have hneg : ¬i < 0 := by
    rw [Int32.lt_iff_toInt_lt, hi]
    simp
  unfold position?
  rw [if_neg hneg, hi, if_pos (by omega), Int.toNat_natCast]

theorem position?_of_ge (hi : i.toInt = j) (hj : n ≤ j) : position? i n = none := by
  have hneg : ¬i < 0 := by
    rw [Int32.lt_iff_toInt_lt, hi]
    simp
  unfold position?
  rw [if_neg hneg, hi, if_neg (by omega)]

/-- A negative index counts from the end. -/
theorem position?_of_neg (hi : i.toInt = -((j : Int) + 1)) (hj : j < n) :
    position? i n = some (n - 1 - j) := by
  have hneg : i < 0 := by
    rw [Int32.lt_iff_toInt_lt, hi]
    simp only [Int32.toInt_zero]
    omega
  unfold position?
  rw [if_pos hneg, hi, if_pos (by omega)]
  congr 1
  omega

theorem position?_ofNat (h : j < 2 ^ 31) (hj : j < n) : position? (Int32.ofNat j) n = some j :=
  position?_of_lt (Int32.toInt_ofNat_of_lt h) hj

theorem position?_ofNat_none (h : j < 2 ^ 31) (hj : n ≤ j) : position? (Int32.ofNat j) n = none :=
  position?_of_ge (Int32.toInt_ofNat_of_lt h) hj

/-- The last element. -/
theorem position?_last (h : 0 < n) : position? (-1) n = some (n - 1) :=
  position?_of_neg (j := 0) rfl h

/-- An unsigned index below the number of elements means one of them, even where it counts as
    negative. -/
theorem exists_position {m : UInt32} (h : m.toNat < n) : ∃ j, position? m.toInt32 n = some j := by
  have hlt := m.toNat_lt
  by_cases hm : m.toNat < 2 ^ 31
  · exact ⟨m.toNat, position?_of_lt (by rw [toInt_toInt32, if_pos hm]) h⟩
  · refine ⟨_, position?_of_neg (j := 2 ^ 32 - 1 - m.toNat) ?_ (by omega)⟩
    rw [toInt_toInt32, if_neg hm]
    omega

theorem lt_of_position? (h : position? i n = some j) : j < n := by
  unfold position? at h
  generalize (if i < 0 then (n : Int) + i.toInt else i.toInt) = k at h
  by_cases hk : 0 ≤ k ∧ k < n
  · rw [if_pos hk, Option.some.injEq] at h
    omega
  · rw [if_neg hk] at h
    cases h

/-! ## Elements -/

theorem lookup_of_child {root : Nbt} {segment : Segment}
    (h : root.child? segment = some (.stored v)) :
    lookup root (segment :: rest) = lookup v rest := by
  simp [lookup, h]

theorem lookup_of_child_none {root : Nbt} {segment : Segment} (h : root.child? segment = none) :
    lookup root (segment :: rest) = none := by
  simp [lookup, h]

theorem modifyAt_index_cons {β : Type} {f : Nbt → Option β × Nbt} :
    modifyAt f (.index i :: rest) (list items) =
      match position? i items.size with
      | some j => ((modifyElement items j (modifyAt f rest)).1,
        list (modifyElement items j (modifyAt f rest)).2)
      | none => (none, list items) :=
  rfl

theorem lookup_index (hp : position? i items.size = some j) (hj : items[j]? = some v) :
    lookup (list items) (.index i :: rest) = lookup v rest := by
  have hc : child? (list items) (.index i) = some (.stored v) := by
    show (do return Slot.stored (← items[← position? i items.size]?)) = _
    rw [hp]
    show (do return Slot.stored (← items[j]?)) = _
    rw [hj]
    rfl
  exact lookup_of_child hc

theorem lookup_index_none (hp : position? i items.size = none) :
    lookup (list items) (.index i :: rest) = none := by
  have hc : child? (list items) (.index i) = none := by
    show (do return Slot.stored (← items[← position? i items.size]?)) = _
    rw [hp]
    rfl
  exact lookup_of_child_none hc

/-- A change along a path that begins with an index is a change of an element. -/
theorem modifyAt_index {β : Type} {f : Nbt → Option β × Nbt} (hp : position? i items.size = some j)
    (hj : items[j]? = some v) :
    modifyAt f (.index i :: rest) (list items) =
      ((modifyAt f rest v).1, list (items.setIfInBounds j (modifyAt f rest v).2)) := by
  obtain ⟨hlt, rfl⟩ := Array.getElem?_eq_some_iff.1 hj
  have hset : (items.set j default hlt).setIfInBounds j (modifyAt f rest items[j]).2 =
      items.setIfInBounds j (modifyAt f rest items[j]).2 := by
    apply Array.ext_getElem?
    intro m
    simp only [Array.getElem?_setIfInBounds, Array.getElem?_set, Array.size_set]
    split <;> rfl
  simp only [modifyAt_index_cons, hp, modifyElement, hlt, dif_pos, hset]

theorem modifyAt_index_none {β : Type} {f : Nbt → Option β × Nbt}
    (hp : position? i items.size = none) :
    modifyAt f (.index i :: rest) (list items) = (none, list items) := by
  rw [modifyAt_index_cons, hp]

/-! ## Lists of one kind of value -/

section Encoded

variable {α : Type} {f : α → Nbt} {xs : List α} {x y : α}

/-- A list whose elements stand for other things. -/
def listOf (f : α → Nbt) (xs : List α) : Nbt := list (xs.map f).toArray

theorem size_listOf : (xs.map f).toArray.size = xs.length := by simp

theorem getElem?_listOf (hx : xs[j]? = some x) : (xs.map f).toArray[j]? = some (f x) := by
  simp [hx]

theorem lookup_listOf (hp : position? i xs.length = some j) (hx : xs[j]? = some x) :
    lookup (listOf f xs) (.index i :: rest) = lookup (f x) rest :=
  lookup_index (by rw [size_listOf, hp]) (getElem?_listOf hx)

theorem lookup_listOf_none (hp : position? i xs.length = none) :
    lookup (listOf f xs) (.index i :: rest) = none :=
  lookup_index_none (by rw [size_listOf, hp])

theorem modifyAt_listOf {β : Type} {g : Nbt → Option β × Nbt} {b : Option β}
    (hp : position? i xs.length = some j) (hx : xs[j]? = some x)
    (hg : modifyAt g rest (f x) = (b, f y)) :
    modifyAt g (.index i :: rest) (listOf f xs) = (b, listOf f (xs.set j y)) := by
  unfold listOf
  rw [modifyAt_index (by rw [size_listOf, hp]) (getElem?_listOf hx), hg, List.map_set,
    List.setIfInBounds_toArray]

theorem modifyAt_listOf_none {β : Type} {g : Nbt → Option β × Nbt}
    (hp : position? i xs.length = none) :
    modifyAt g (.index i :: rest) (listOf f xs) = (none, listOf f xs) :=
  modifyAt_index_none (by rw [size_listOf, hp])

/-- Writing an element. -/
theorem write_listOf (hp : position? i xs.length = some j) :
    ∃ b, write [.index i] (f y) (listOf f xs) = (some b, listOf f (xs.set j y)) := by
  have hp' : position? i (xs.map f).toArray.size = some j := by rw [size_listOf, hp]
  refine ⟨decide ((xs.map f).toArray[j]? ≠ some (f y)), ?_⟩
  show writeChild (.index i) (f y) (list (xs.map f).toArray) = _
  simp only [writeChild, hp']
  rw [listOf, List.map_set, List.setIfInBounds_toArray]

theorem write_listOf_none (hp : position? i xs.length = none) :
    write [.index i] value (listOf f xs) = (none, listOf f xs) := by
  have hp' : position? i (xs.map f).toArray.size = none := by rw [size_listOf, hp]
  show writeChild (.index i) value (list (xs.map f).toArray) = _
  simp only [writeChild, hp']
  rfl

/-- Writing behind an index. -/
theorem write_index_cons (h : rest ≠ []) :
    ∃ g : Nbt → Option Bool × Nbt, ∃ parents, write rest value = modifyAt g parents ∧
      write (.index i :: rest) value = modifyAt g (.index i :: parents) := by
  obtain ⟨parents, last, hs⟩ := splitLast?_isSome h
  refine ⟨writeChild last value, parents, ?_, ?_⟩
  · funext root
    rw [write, hs]
  · funext root
    rw [write, splitLast?_cons h, hs]
    rfl

/-- Writing inside an element. -/
theorem write_listOf_deep {b : Option Bool} (h : rest ≠ []) (hp : position? i xs.length = some j)
    (hx : xs[j]? = some x) (hw : write rest value (f x) = (b, f y)) :
    write (.index i :: rest) value (listOf f xs) = (b, listOf f (xs.set j y)) := by
  obtain ⟨g, parents, hg, hcons⟩ := write_index_cons (i := i) h
  rw [hg] at hw
  rw [hcons]
  exact modifyAt_listOf hp hx hw

theorem write_listOf_deep_none (h : rest ≠ []) (hp : position? i xs.length = none) :
    write (.index i :: rest) value (listOf f xs) = (none, listOf f xs) := by
  obtain ⟨g, parents, -, hcons⟩ := write_index_cons (i := i) h
  rw [hcons]
  exact modifyAt_listOf_none hp

theorem append_listOf : append [] (f x) (listOf f xs) = (some true, listOf f (xs ++ [x])) := by
  show (some true, list ((xs.map f).toArray.push (f x))) = _
  simp [listOf]

theorem append_listOf_deep {b : Option Bool} (hp : position? i xs.length = some j)
    (hx : xs[j]? = some x) (ha : append rest value (f x) = (b, f y)) :
    append (.index i :: rest) value (listOf f xs) = (b, listOf f (xs.set j y)) :=
  modifyAt_listOf hp hx ha

theorem append_listOf_none (hp : position? i xs.length = none) :
    append (.index i :: rest) value (listOf f xs) = (none, listOf f xs) :=
  modifyAt_listOf_none hp

/-- Removing an element. -/
theorem remove_listOf (hp : position? i xs.length = some j) :
    remove [.index i] (listOf f xs) = (some (), listOf f (xs.eraseIdx j)) := by
  have hp' : position? i (xs.map f).toArray.size = some j := by rw [size_listOf, hp]
  show removeChild (.index i) (list (xs.map f).toArray) = _
  simp only [removeChild, hp']
  rw [listOf, List.eraseIdxIfInBounds_toArray, List.eraseIdx_map]

/-- Removing the last element. -/
theorem remove_listOf_last : remove [.index (-1)] (listOf f (xs ++ [x])) = (some (), listOf f xs) := by
  have hlen : (xs ++ [x]).length = xs.length + 1 := by simp
  rw [remove_listOf (position?_last (by omega)), hlen, Nat.add_sub_cancel]
  simp [List.eraseIdx_append_of_length_le]

end Encoded

/-! ## Byte arrays -/

section Bytes

variable {elements : Array Int8} {b : Int8}

theorem lookup_bytes (hp : position? i elements.size = some j) (hj : elements[j]? = some b) :
    lookup (bytes elements) [.index i] = some (.element b) := by
  have hc : child? (bytes elements) (.index i) = some (.element b) := by
    show (do return Slot.element (← elements[← position? i elements.size]?)) = _
    rw [hp]
    show (do return Slot.element (← elements[j]?)) = _
    rw [hj]
    rfl
  simp [lookup, hc]

theorem write_bytes (hp : position? i elements.size = some j) :
    ∃ c, write [.index i] (byte b) (bytes elements) =
      (some c, bytes (elements.setIfInBounds j b)) := by
  refine ⟨decide (elements[j]? ≠ some b), ?_⟩
  show writeChild (.index i) (byte b) (bytes elements) = _
  simp only [writeChild, hp, toElement?]

theorem write_bytes_none (hp : position? i elements.size = none) :
    write [.index i] value (bytes elements) = (none, bytes elements) := by
  show writeChild (.index i) value (bytes elements) = _
  simp only [writeChild, hp]

end Bytes

end Nbt

end WasmPack
