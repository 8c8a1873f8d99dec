/-
  WasmPack.Proofs.Command.Characters

  The characters of what commands are written with: numbers, names, paths and
  values.  The text of each is put together from fixed pieces of signs and from
  texts that it is given, so any test of characters that lets the signs through
  holds of the whole as soon as it holds of those texts.
-/
import WasmPack.Command.Render
import WasmPack.Proofs.Execution.Names

namespace WasmPack

variable {P Q : Char → Bool} {s t ns : String}

/-! ## Tests of characters -/

/-- All characters of the text pass the test. -/
def Spelled (P : Char → Bool) (text : String) : Prop := text.toList.all P = true

instance (P : Char → Bool) (text : String) : Decidable (Spelled P text) :=
  inferInstanceAs (Decidable (text.toList.all P = true))

theorem spelled_iff : Spelled P t ↔ ∀ c ∈ t.toList, P c = true := List.all_eq_true

/-- A printable character of ASCII. -/
def isPrintableChar (c : Char) : Bool := ' ' ≤ c && c ≤ '~'

/-- A printable character that is not the sign of registers and tags. -/
def isSign (c : Char) : Bool := isPrintableChar c && c ≠ '#'

/-- The test lets signs through. -/
def Lenient (P : Char → Bool) : Prop := ∀ c, isSign c = true → P c = true

theorem lenient_isPrintableChar : Lenient isPrintableChar := fun _ h => (Bool.and_eq_true_iff.1 h).1

namespace Spelled

theorem mono (hPQ : ∀ c, P c = true → Q c = true) (h : Spelled P t) : Spelled Q t :=
  spelled_iff.2 fun c hc => hPQ c (spelled_iff.1 h c hc)

/-- A fixed piece of signs. -/
theorem signs (hP : Lenient P) (h : Spelled isSign t) : Spelled P t := h.mono hP

theorem empty : Spelled P "" := rfl

theorem append (hs : Spelled P s) (ht : Spelled P t) : Spelled P (s ++ t) := by
  rw [Spelled, String.toList_append, List.all_append, Bool.and_eq_true_iff]
  exact ⟨hs, ht⟩

theorem ite {p : Prop} [Decidable p] (hs : Spelled P s) (ht : Spelled P t) :
    Spelled P (if p then s else t) := by
  split
  · exact hs
  · exact ht

theorem intercalate (hP : Lenient P) {parts : List String} (h : ∀ t ∈ parts, Spelled P t) :
    Spelled P (String.intercalate "," parts) := by
  have hcomma : Spelled P "," := signs hP (by decide)
  rw [Spelled, String.toList_intercalate]
  induction parts with
  | nil => rfl
  | cons t parts ih =>
    have ht := h t List.mem_cons_self
    cases parts with
    | nil => rwa [List.map_singleton, List.intercalate_singleton]
    | cons t' parts =>
      have htail := ih fun u hu => h u (List.mem_cons_of_mem t hu)
      rw [List.map_cons, List.map_cons, List.intercalate_cons_cons, List.all_append,
        List.all_append, Bool.and_eq_true_iff, Bool.and_eq_true_iff]
      exact ⟨⟨ht, hcomma⟩, htail⟩

/-! ## Numbers -/

theorem isSign_of_isDigit {c : Char} (h : c.isDigit = true) : isSign c = true := by
  have hrange : ('0' ≤ c && c ≤ '9') = true := h
  simp only [Bool.and_eq_true, decide_eq_true_eq] at hrange
  simp only [isSign, isPrintableChar, Bool.and_eq_true, decide_eq_true_eq]
  refine ⟨⟨Char.le_trans (by decide) hrange.1, Char.le_trans hrange.2 (by decide)⟩, ?_⟩
  rintro rfl
  exact absurd hrange.1 (by decide)

theorem nat (hP : Lenient P) (n : Nat) : Spelled P (toString n) :=
  spelled_iff.2 fun c hc => hP c (isSign_of_isDigit (isDigit_of_mem_toString hc))

theorem int (hP : Lenient P) (n : Int) : Spelled P (toString n) := by
  cases n with
  | ofNat n => exact nat hP n
  | negSucc n => exact (signs hP (by decide) : Spelled P "-").append (nat hP (n + 1))

theorem range (hP : Lenient P) (r : Range) : Spelled P r.render := by
  have hdots : Spelled P ".." := signs hP (by decide)
  obtain ⟨lo, hi⟩ := r
  cases lo with
  | none =>
    cases hi with
    | none => exact hdots
    | some hi => exact hdots.append (int hP _)
  | some lo =>
    cases hi with
    | none => exact (int hP _).append hdots
    | some hi => exact .ite (int hP _) (((int hP _).append hdots).append (int hP _))

end Spelled

/-! ## Paths -/

/-- The keys of a path. -/
def Path.keys (p : Path) : List String :=
  p.segments.filterMap fun
    | .key k => some k
    | .index _ => none

namespace Spelled

theorem segments (hP : Lenient P) {segments : List Segment} {first : Bool}
    (h : ∀ k, .key k ∈ segments → Spelled P k) : Spelled P (Path.segmentsText first segments) := by
  induction segments generalizing first with
  | nil => exact empty
  | cons s segments ih =>
    have htail : ∀ {first}, Spelled P (Path.segmentsText first segments) :=
      ih fun k hk => h k (List.mem_cons_of_mem s hk)
    cases s with
    | key k =>
      have hk := h k List.mem_cons_self
      exact (Spelled.ite hk ((signs hP (by decide) : Spelled P ".").append hk)).append htail
    | index i =>
      exact (((signs hP (by decide) : Spelled P "[").append (int hP _)).append
        (signs hP (by decide))).append htail

theorem path (hP : Lenient P) (hns : Spelled P ns) {p : Path} (h : ∀ k ∈ p.keys, Spelled P k) :
    Spelled P (p.render ns) := by
  refine .append (.append ?_ (signs hP (by decide))) (segments hP fun k hk =>
    h k (List.mem_filterMap.2 ⟨_, hk, rfl⟩))
  cases p.storage with
  | shared =>
    have hid : Spelled isSign (sharedNamespace ++ ":__internal") := by decide
    exact signs hP hid
  | own => exact hns.append (signs hP (by decide))

end Spelled

/-! ## Values -/

mutual

/-- The texts and keys in a value. -/
def Nbt.texts : Nbt → List String
  | .text s => [s]
  | .list ⟨items⟩ => itemTexts items
  | .compound fields => fieldTexts fields
  | _ => []

/-- Those in the items of a list. -/
def Nbt.itemTexts : List Nbt → List String
  | [] => []
  | item :: rest => item.texts ++ itemTexts rest

/-- Those in the fields of a compound. -/
def Nbt.fieldTexts : List (String × Nbt) → List String
  | [] => []
  | (key, value) :: rest => key :: (value.texts ++ fieldTexts rest)

end

namespace Spelled

theorem quote (hP : Lenient P) (h : Spelled P s) : Spelled P (Nbt.quote s) := by
  have hmark : Spelled P "\"" := signs hP (by decide)
  refine .append (.append hmark (spelled_iff.2 fun c hc => ?_)) hmark
  rw [String.toList_ofList] at hc
  obtain ⟨d, hd, hc⟩ := List.mem_flatMap.1 hc
  unfold Nbt.escapeChar at hc
  split at hc
  · obtain rfl | hc := List.mem_cons.1 hc
    · exact hP _ (by decide)
    · exact List.mem_singleton.1 hc ▸ spelled_iff.1 h d hd
  · exact List.mem_singleton.1 hc ▸ spelled_iff.1 h d hd

theorem byteText (hP : Lenient P) (b : Int8) : Spelled P (Nbt.byteText b) :=
  (int hP _).append (signs hP (by decide))

mutual

theorem value (hP : Lenient P) : ∀ v : Nbt, (∀ t ∈ v.texts, Spelled P t) → Spelled P v.render
  | .int n, _ => int hP _
  | .byte b, _ => byteText hP b
  | .text s, h => quote hP (h s List.mem_cons_self)
  | .list ⟨items⟩, h =>
    .append (.append (signs hP (by decide)) (intercalate hP (valueItems hP items h)))
      (signs hP (by decide))
  | .bytes elements, _ => by
    refine .append (.append (signs hP (by decide)) (intercalate hP fun t ht => ?_))
      (signs hP (by decide))
    obtain ⟨b, -, rfl⟩ := List.mem_map.1 ht
    exact byteText hP b
  | .compound fields, h =>
    .append (.append (signs hP (by decide)) (intercalate hP (valueFields hP fields h)))
      (signs hP (by decide))

theorem valueItems (hP : Lenient P) : ∀ items : List Nbt,
    (∀ t ∈ Nbt.itemTexts items, Spelled P t) → ∀ t ∈ Nbt.renderItems items, Spelled P t
  | [], _ => fun _ h => nomatch h
  | item :: rest, h => by
    obtain ⟨hitem, hrest⟩ := List.forall_mem_append.1 h
    exact List.forall_mem_cons.2 ⟨value hP item hitem, valueItems hP rest hrest⟩

theorem valueFields (hP : Lenient P) : ∀ fields : List (String × Nbt),
    (∀ t ∈ Nbt.fieldTexts fields, Spelled P t) → ∀ t ∈ Nbt.renderFields fields, Spelled P t
  | [], _ => fun _ h => nomatch h
  | (key, v) :: rest, h => by
    obtain ⟨hkey, h⟩ := List.forall_mem_cons.1 h
    obtain ⟨hvalue, hrest⟩ := List.forall_mem_append.1 h
    exact List.forall_mem_cons.2 ⟨.append (.append hkey (signs hP (by decide)))
      (value hP v hvalue), valueFields hP rest hrest⟩

end

end Spelled

/-! ## Names -/

/-- The parts of a symbol's name that the module gives. -/
def Symbol.parts : Symbol → List String
  | .exportFunc name => [name]
  | .exportMemory name _ => [name]
  | .exportGlobal name _ => [name]
  | .importFunc id => [id.origin, id.member]
  | .importMemory id _ => [id.origin, id.member]
  | .importGlobal id _ => [id.origin, id.member]
  | _ => []

namespace Spelled

theorem memoryOp (hP : Lenient P) (op : MemoryOp) : Spelled P op.name :=
  signs hP (by cases op <;> decide)

theorem globalOp (hP : Lenient P) (op : GlobalOp) : Spelled P op.name :=
  signs hP (by cases op <;> decide)

theorem internal (hP : Lenient P) (hns : Spelled P ns) (ht : Spelled P t) :
    Spelled P (internal ns t) := (hns.append (signs hP (by decide))).append ht

/-- What a module numbers, with what stands behind the number. -/
theorem numbered (hP : Lenient P) {front back : String} (hfront : Spelled isSign front)
    (hback : Spelled P back) (n : Nat) : Spelled P (front ++ toString n ++ back) :=
  ((signs hP hfront).append (nat hP n)).append hback

theorem treeBase (hP : Lenient P) (hns : Spelled P ns) (base : TreeBase) :
    Spelled P (base.qualifiedName ns) := by
  have hshared : Spelled P sharedNamespace := signs hP (by decide)
  cases base with
  | swapIn i => exact internal hP hns (numbered hP (by decide) (signs hP (by decide)) _)
  | swapOut i => exact internal hP hns (numbered hP (by decide) (signs hP (by decide)) _)
  | byteGet => exact internal hP hshared (signs hP (by decide))
  | byteSet => exact internal hP hshared (signs hP (by decide))

/-- The name of an operation on what a module exports. -/
theorem publicOp (hP : Lenient P) (hns : Spelled P ns) {front name op : String}
    (hfront : Spelled isSign front) (hname : Spelled P name) (hop : Spelled P op) :
    Spelled P (ns ++ front ++ name ++ "/" ++ op) :=
  (((hns.append (signs hP hfront)).append hname).append (signs hP (by decide))).append hop

/-- The name of a symbol has the characters of the namespace and of the parts that the module gives,
    and signs. -/
theorem qualifiedName (hP : Lenient P) (hns : Spelled P ns) {f : Symbol}
    (h : ∀ t ∈ f.parts, Spelled P t) : Spelled P (f.qualifiedName ns) := by
  have hcolon : Spelled P ":" := signs hP (by decide)
  cases f with
  | func i => exact internal hP hns ((signs hP (by decide)).append (nat hP _))
  | fragment i => exact internal hP hns ((signs hP (by decide)).append (nat hP _))
  | memory i op =>
    have hop : Spelled P ("/" ++ op.name) := (signs hP (by decide)).append (memoryOp hP op)
    have hpath : Spelled P ("mems/" ++ toString i.toNat ++ ("/" ++ op.name)) :=
      numbered hP (by decide) hop i.toNat
    rw [← String.append_assoc] at hpath
    exact internal hP hns hpath
  | swapOutAll => exact internal hP hns (signs hP (by decide))
  | global i op =>
    have hop : Spelled P ("/" ++ op.name) := (signs hP (by decide)).append (globalOp hP op)
    have hpath : Spelled P ("globals/" ++ toString i.toNat ++ ("/" ++ op.name)) :=
      numbered hP (by decide) hop i.toNat
    rw [← String.append_assoc] at hpath
    exact internal hP hns hpath
  | tree base lo hi =>
    exact ((((treeBase hP hns base).append (signs hP (by decide))).append (nat hP _)).append
      (signs hP (by decide))).append (nat hP _)
  | exportFunc name => exact (hns.append hcolon).append (h name List.mem_cons_self)
  | exportMemory name op =>
    exact publicOp hP hns (by decide) (h name List.mem_cons_self) (memoryOp hP op)
  | exportGlobal name op =>
    exact publicOp hP hns (by decide) (h name List.mem_cons_self) (globalOp hP op)
  | importFunc id =>
    exact ((h _ List.mem_cons_self).append hcolon).append
      (h _ (List.mem_cons_of_mem _ List.mem_cons_self))
  | importMemory id op =>
    exact publicOp hP (h _ List.mem_cons_self) (by decide)
      (h _ (List.mem_cons_of_mem _ List.mem_cons_self)) (memoryOp hP op)
  | importGlobal id op =>
    exact publicOp hP (h _ List.mem_cons_self) (by decide)
      (h _ (List.mem_cons_of_mem _ List.mem_cons_self)) (globalOp hP op)
  | init => exact hns.append (signs hP (by decide))
  | routine r =>
    have hshared : Spelled P sharedNamespace := signs hP (by decide)
    exact internal hP hshared (signs hP (by cases r <;> decide))

end Spelled

end WasmPack
