/-
  WasmPack.Proofs.Nbt.Text

  The text of a value tells the value.  Where a text begins with a value, the
  value ends at one place only: numbers where a character stands that is in no
  number, strings at the first mark that is not escaped, and everything else at
  the bracket that closes it, inside which the same holds of the parts.
-/
import WasmPack.Proofs.Closed.Mentions

namespace WasmPack

variable {α : Type} {s : String} {x y : List Char}

/-! ## Where texts end -/

/-- What stands behind a piece of characters that pass the test: nothing, or a character that
    does not pass. -/
def Ends (P : Char → Bool) (rest : List Char) : Prop := ∀ c ∈ rest.head?, P c = false

theorem Ends.nil {P : Char → Bool} : Ends P [] := fun _ h => nomatch h

theorem Ends.cons {P : Char → Bool} {c : Char} (h : P c = false) : Ends P (c :: x) := by
  rintro d hd
  rwa [← Option.some.inj hd]

/-- A piece of characters that pass a test ends where one stands that does not. -/
theorem append_ends_inj {P : Char → Bool} {u v : List Char} (hu : ∀ c ∈ u, P c = true)
    (hv : ∀ c ∈ v, P c = true) (hx : Ends P x) (hy : Ends P y) (h : u ++ x = v ++ y) :
    u = v ∧ x = y := by
  have hnil : ∀ {x : List Char}, Ends P x → x.takeWhile P = [] := by
    intro x hx
    cases x with
    | nil => rfl
    | cons c x =>
      rw [List.takeWhile_cons, hx c rfl]
      rfl
  have htake := congrArg (List.takeWhile P) h
  rw [List.takeWhile_append_of_pos hu, List.takeWhile_append_of_pos hv, hnil hx, hnil hy,
    List.append_nil, List.append_nil] at htake
  subst htake
  exact ⟨rfl, List.append_cancel_left h⟩

/-! ## Numbers -/

theorem toString_int_cons (n : Int) :
    ∃ c cs, (toString n).toList = c :: cs ∧ (c = '-' ∨ c.isDigit = true) := by
  have hne : (toString n).toList ≠ [] := by
    cases n with
    | ofNat n =>
      have hdigits : (toString n : String).toList = Nat.toDigits 10 n := Nat.toList_repr
      exact fun h => absurd (hdigits.symm.trans h) Nat.toDigits_ne_nil
    | negSucc n =>
      have hminus : (toString (Int.negSucc n)).toList = '-' :: (toString (n + 1)).toList :=
        String.toList_append
      rw [hminus]
      exact List.cons_ne_nil _ _
  obtain ⟨c, cs, hcs⟩ := List.exists_cons_of_ne_nil hne
  exact ⟨c, cs, hcs, mem_toString_int (hcs ▸ List.mem_cons_self)⟩

/-- A character of a number, or the mark of a byte behind it. -/
def isNumberChar (c : Char) : Bool := c = '-' || c.isDigit || c = 'b'

theorem isNumberChar_of_mem {n : Int} {c : Char} (h : c ∈ (toString n).toList) :
    isNumberChar c = true := by
  obtain rfl | h := mem_toString_int h
  · rfl
  · simp [isNumberChar, h]

theorem toList_byteText (b : Int8) :
    (Nbt.byteText b).toList = (toString b.toInt).toList ++ ['b'] :=
  String.toList_append

theorem isNumberChar_of_mem_byteText {b : Int8} {c : Char} (h : c ∈ (Nbt.byteText b).toList) :
    isNumberChar c = true := by
  rw [toList_byteText] at h
  obtain h | h := List.mem_append.1 h
  · exact isNumberChar_of_mem h
  · rw [List.mem_singleton.1 h]
    rfl

theorem byteText_inj {a b : Int8} (h : (Nbt.byteText a).toList = (Nbt.byteText b).toList) :
    a = b := by
  rw [toList_byteText, toList_byteText] at h
  exact Int8.toInt_inj.1 (toString_int_inj (String.toList_inj.1 (List.append_cancel_right h)))

/-! ## Strings -/

/-- A string ends at the first mark that is not escaped. -/
theorem quoted_append_inj {s t : List Char}
    (h : s.flatMap Nbt.escapeChar ++ '"' :: x = t.flatMap Nbt.escapeChar ++ '"' :: y) :
    s = t ∧ x = y := by
  induction s generalizing t with
  | nil =>
    cases t with
    | nil => exact ⟨rfl, (List.cons.inj h).2⟩
    | cons d t =>
      rw [List.flatMap_cons, Nbt.escapeChar] at h
      split at h
      · exact absurd (List.cons.inj h).1 (by decide)
      · rename_i hd
        exact absurd (.inr (List.cons.inj h).1.symm) hd
  | cons c s ih =>
    cases t with
    | nil =>
      rw [List.flatMap_cons, Nbt.escapeChar] at h
      split at h
      · exact absurd (List.cons.inj h).1 (by decide)
      · rename_i hc
        exact absurd (.inr (List.cons.inj h).1) hc
    | cons d t =>
      rw [List.flatMap_cons, List.flatMap_cons, List.append_assoc, List.append_assoc,
        Nbt.escapeChar, Nbt.escapeChar] at h
      split at h
      · split at h
        · obtain ⟨hcd, hrest⟩ := List.cons.inj (List.cons.inj h).2
          obtain ⟨rfl, hxy⟩ := ih hrest
          exact ⟨by rw [hcd], hxy⟩
        · rename_i hd
          exact absurd (.inl (List.cons.inj h).1.symm) hd
      · rename_i hc
        split at h
        · exact absurd (.inl (List.cons.inj h).1) hc
        · obtain ⟨hcd, hrest⟩ := List.cons.inj h
          obtain ⟨rfl, hxy⟩ := ih hrest
          exact ⟨by rw [hcd], hxy⟩

/-! ## Lists of texts -/

theorem toList_intercalate_cons (t : String) (ts : List String) :
    (String.intercalate "," (t :: ts)).toList = t.toList ++ ts.flatMap fun t => ',' :: t.toList := by
  induction ts generalizing t with
  | nil => simp
  | cons t' ts ih =>
    rw [String.intercalate_cons_cons, String.toList_append, String.toList_append, ih,
      List.flatMap_cons, List.append_assoc]
    rfl

/-- The two texts that stand for the elements of a list are told apart wherever they end. -/
def Separates (text : α → String) (a b : α) : Prop :=
  ∀ {x y : List Char}, Ends isNumberChar x → Ends isNumberChar y →
    (text a).toList ++ x = (text b).toList ++ y → a = b ∧ x = y

section Joined

variable {text : α → String} {close : Char} {as bs : List α}

/-- Behind an element stand the others, each with a comma in front of it, and the bracket that
    closes the list. -/
theorem ends_joined (hclose : isNumberChar close = false) :
    Ends isNumberChar (as.flatMap (fun a => ',' :: (text a).toList) ++ close :: x) := by
  cases as with
  | nil => exact .cons hclose
  | cons a as => exact .cons (by decide)

theorem joined_tail_inj (hcomma : close ≠ ',') (hclose : isNumberChar close = false)
    (hsep : ∀ a ∈ as, ∀ b ∈ bs, Separates text a b)
    (h : as.flatMap (fun a => ',' :: (text a).toList) ++ close :: x =
      bs.flatMap (fun b => ',' :: (text b).toList) ++ close :: y) : as = bs ∧ x = y := by
  induction as generalizing bs with
  | nil =>
    cases bs with
    | nil => exact ⟨rfl, (List.cons.inj h).2⟩
    | cons b bs => exact absurd (List.cons.inj h).1 hcomma
  | cons a as ih =>
    cases bs with
    | nil => exact absurd (List.cons.inj h).1.symm hcomma
    | cons b bs =>
      rw [List.flatMap_cons, List.flatMap_cons, List.append_assoc, List.append_assoc] at h
      obtain ⟨rfl, htail⟩ := hsep a List.mem_cons_self b List.mem_cons_self (ends_joined hclose)
        (ends_joined hclose) (List.cons.inj h).2
      obtain ⟨rfl, hxy⟩ := ih (fun a ha b hb =>
        hsep a (List.mem_cons_of_mem _ ha) b (List.mem_cons_of_mem _ hb)) htail
      exact ⟨rfl, hxy⟩

/-- A list ends at its bracket if its elements are told apart and none of them begins with it. -/
theorem joined_inj (hcomma : close ≠ ',') (hclose : isNumberChar close = false)
    (hsep : ∀ a ∈ as, ∀ b ∈ bs, Separates text a b)
    (hopen : ∀ a ∈ as ++ bs, ∃ c cs, (text a).toList = c :: cs ∧ c ≠ close)
    (h : (String.intercalate "," (as.map text)).toList ++ close :: x =
      (String.intercalate "," (bs.map text)).toList ++ close :: y) : as = bs ∧ x = y := by
  cases as with
  | nil =>
    cases bs with
    | nil => exact ⟨rfl, (List.cons.inj h).2⟩
    | cons b bs =>
      obtain ⟨c, cs, hb, hc⟩ := hopen b List.mem_cons_self
      rw [List.map_cons, toList_intercalate_cons, hb] at h
      exact absurd (List.cons.inj h).1.symm hc
  | cons a as =>
    cases bs with
    | nil =>
      obtain ⟨c, cs, ha, hc⟩ := hopen a List.mem_cons_self
      rw [List.map_cons, toList_intercalate_cons, ha] at h
      exact absurd (List.cons.inj h).1 hc
    | cons b bs =>
      rw [List.map_cons, List.map_cons, toList_intercalate_cons, toList_intercalate_cons,
        List.append_assoc, List.append_assoc, List.flatMap_map, List.flatMap_map] at h
      obtain ⟨rfl, htail⟩ := hsep a List.mem_cons_self b List.mem_cons_self (ends_joined hclose)
        (ends_joined hclose) h
      obtain ⟨rfl, hxy⟩ := joined_tail_inj hcomma hclose (fun a ha b hb =>
        hsep a (List.mem_cons_of_mem _ ha) b (List.mem_cons_of_mem _ hb)) htail
      exact ⟨rfl, hxy⟩

end Joined

/-! ## Values -/

/-- A character of a word. -/
def isWordChar (c : Char) : Bool := ('a' ≤ c && c ≤ 'z') || c = '_'

/-- A word is not empty and made of small letters and underscores. -/
def IsWord (s : String) : Prop := s ≠ "" ∧ s.toList.all isWordChar = true

instance (s : String) : Decidable (IsWord s) := inferInstanceAs (Decidable (_ ∧ _))

theorem IsWord.isWordChar (h : IsWord s) {c : Char} (hc : c ∈ s.toList) : isWordChar c = true :=
  List.all_eq_true.1 h.2 c hc

theorem IsWord.not_mem (h : IsWord s) {c : Char} (hc : WasmPack.isWordChar c = false) :
    c ∉ s.toList := fun hmem => absurd (h.isWordChar hmem) (by rw [hc]; decide)

theorem IsWord.exists_cons (h : IsWord s) : ∃ c cs, s.toList = c :: cs :=
  List.exists_cons_of_ne_nil fun hnil => h.1 (String.toList_eq_nil_iff.1 hnil)

mutual

/-- The names of fields in a value. -/
def Nbt.keys : Nbt → List String
  | .list ⟨items⟩ => itemKeys items
  | .compound fields => fieldKeys fields
  | _ => []

/-- Those in the items of a list. -/
def Nbt.itemKeys : List Nbt → List String
  | [] => []
  | item :: rest => item.keys ++ itemKeys rest

/-- Those in the fields of a compound, their own names first. -/
def Nbt.fieldKeys : List (String × Nbt) → List String
  | [] => []
  | (key, value) :: rest => key :: (value.keys ++ fieldKeys rest)

end

namespace Nbt

/-- The text of a field. -/
def fieldText (field : String × Nbt) : String := field.1 ++ ":" ++ field.2.render

theorem renderItems_eq (items : List Nbt) : renderItems items = items.map render := by
  induction items with
  | nil => rfl
  | cons item items ih => rw [renderItems, ih, List.map_cons]

theorem renderFields_eq (fields : List (String × Nbt)) :
    renderFields fields = fields.map fieldText := by
  induction fields with
  | nil => rfl
  | cons field fields ih => rw [renderFields, ih, List.map_cons, fieldText]

theorem mem_itemKeys {items : List Nbt} {item : Nbt} (h : item ∈ items) {k : String}
    (hk : k ∈ item.keys) : k ∈ itemKeys items := by
  induction items with
  | nil => cases h
  | cons item' items ih =>
    rw [itemKeys, List.mem_append]
    obtain rfl | h := List.mem_cons.1 h
    · exact .inl hk
    · exact .inr (ih h)

theorem mem_fieldKeys {fields : List (String × Nbt)} {field : String × Nbt} (h : field ∈ fields)
    {k : String} (hk : k = field.1 ∨ k ∈ field.2.keys) : k ∈ fieldKeys fields := by
  induction fields with
  | nil => cases h
  | cons field' fields ih =>
    rw [fieldKeys, List.mem_cons, List.mem_append]
    obtain rfl | h := List.mem_cons.1 h
    · exact hk.imp id .inl
    · exact .inr (.inr (ih h))

/-! ### The first characters -/

/-- The signs that values of a form begin with; numbers begin with none of them. -/
inductive Form where
  | number
  | text
  | list
  | bytes
  | compound
deriving DecidableEq

/-- The form of a value. -/
def form : Nbt → Form
  | int _ => .number
  | byte _ => .number
  | text _ => .text
  | list _ => .list
  | bytes _ => .bytes
  | compound _ => .compound

/-- The form of the value that a text begins with. -/
def formOf : List Char → Form
  | '"' :: _ => .text
  | '[' :: 'B' :: _ => .bytes
  | '[' :: _ => .list
  | '\x7b' :: _ => .compound
  | _ => .number

theorem toList_render_text (s : String) :
    (text s).render.toList ++ x = '"' :: (s.toList.flatMap escapeChar ++ '"' :: x) := by
  simp [render, quote]

theorem toList_render_list (items : List Nbt) : (list ⟨items⟩).render.toList ++ x =
    '[' :: ((String.intercalate "," (items.map render)).toList ++ ']' :: x) := by
  simp [render, renderItems_eq]

theorem toList_render_bytes (elements : Array Int8) : (bytes elements).render.toList ++ x =
    '[' :: 'B' :: ';' :: ((String.intercalate "," (elements.toList.map byteText)).toList ++
      ']' :: x) := by
  simp [render]

theorem toList_render_compound (fields : List (String × Nbt)) :
    (compound fields).render.toList ++ x =
      '\x7b' :: ((String.intercalate "," (fields.map fieldText)).toList ++ '\x7d' :: x) := by
  simp [render, renderFields_eq]

/-- A value begins with none of the brackets that close others, nor with the mark of bytes. -/
theorem exists_render_cons (v : Nbt) : ∃ c cs, v.render.toList = c :: cs ∧ c ≠ ']' ∧ c ≠ 'B' := by
  have hnumber : ∀ {c : Char}, c = '-' ∨ c.isDigit = true → c ≠ ']' ∧ c ≠ 'B' := by
    rintro c (rfl | h)
    · decide
    · refine ⟨?_, ?_⟩ <;>
      · rintro rfl
        exact absurd h (by decide)
  cases v with
  | int n =>
    obtain ⟨c, cs, hcs, hc⟩ := toString_int_cons n.toInt
    exact ⟨c, cs, hcs, hnumber hc⟩
  | byte b =>
    obtain ⟨c, cs, hcs, hc⟩ := toString_int_cons b.toInt
    exact ⟨c, cs ++ ['b'], by rw [render, toList_byteText, hcs, List.cons_append], hnumber hc⟩
  | text s => exact ⟨'"', _, by simpa using @toList_render_text [] s, by decide⟩
  | list items => exact ⟨'[', _, by simpa using @toList_render_list [] items.toList, by decide⟩
  | bytes elements => exact ⟨'[', _, by simpa using @toList_render_bytes [] elements, by decide⟩
  | compound fields =>
    exact ⟨'\x7b', _, by simpa using @toList_render_compound [] fields, by decide⟩

theorem formOf_number {c : Char} {cs : List Char} (h : c = '-' ∨ c.isDigit = true) :
    formOf (c :: cs) = .number := by
  unfold formOf
  split
  case h_5 => rfl
  all_goals
    rename_i heq
    rw [(List.cons.inj heq).1] at h
    exact absurd h (by decide)

/-- The first characters tell the form of a value. -/
theorem formOf_render (v : Nbt) : formOf (v.render.toList ++ x) = v.form := by
  cases v with
  | int n =>
    obtain ⟨c, cs, hcs, hc⟩ := toString_int_cons n.toInt
    rw [render, hcs, List.cons_append]
    exact formOf_number hc
  | byte b =>
    obtain ⟨c, cs, hcs, hc⟩ := toString_int_cons b.toInt
    rw [render, toList_byteText, hcs, List.cons_append]
    exact formOf_number hc
  | text s => rw [toList_render_text, form, formOf]
  | list items =>
    obtain ⟨items⟩ := items
    rw [toList_render_list]
    cases items with
    | nil => rfl
    | cons item items =>
      obtain ⟨c, cs, hcs, -, hc⟩ := item.exists_render_cons
      rw [List.map_cons, toList_intercalate_cons, hcs]
      unfold formOf
      split <;> simp_all [form]
  | bytes elements => rw [toList_render_bytes, form, formOf]
  | compound fields => rw [toList_render_compound, form, formOf]

theorem form_eq {v w : Nbt} (h : v.render.toList ++ x = w.render.toList ++ y) : v.form = w.form := by
  rw [← formOf_render v, h, formOf_render w]

/-! ### Telling values apart -/

/-- The names of all fields are words. -/
def IsWorded (v : Nbt) : Prop := ∀ k ∈ v.keys, IsWord k

/-- A value is told from every other one, whatever stands behind them. -/
def IsTold (v : Nbt) : Prop := ∀ w : Nbt, w.IsWorded → Separates render v w

theorem separates_int {m n : Int32} : Separates render (int m) (int n) := by
  intro x y hx hy h
  obtain ⟨hint, rfl⟩ := append_ends_inj (fun c hc => isNumberChar_of_mem hc)
    (fun c hc => isNumberChar_of_mem hc) hx hy h
  rw [Int32.toInt_inj.1 (toString_int_inj (String.toList_inj.1 hint))]
  exact ⟨rfl, rfl⟩

theorem separates_byteText {a b : Int8} : Separates byteText a b := by
  intro x y hx hy h
  obtain ⟨hbyte, rfl⟩ := append_ends_inj (fun c hc => isNumberChar_of_mem_byteText hc)
    (fun c hc => isNumberChar_of_mem_byteText hc) hx hy h
  exact ⟨byteText_inj hbyte, rfl⟩

/-- The mark behind a byte tells it from a number. -/
theorem int_ne_byte {n : Int32} {b : Int8} (hx : Ends isNumberChar x) (hy : Ends isNumberChar y)
    (h : (int n).render.toList ++ x = (byte b).render.toList ++ y) : False := by
  have heq : (toString n.toInt).toList = (byteText b).toList :=
    (append_ends_inj (fun c hc => isNumberChar_of_mem hc)
      (fun c hc => isNumberChar_of_mem_byteText hc) hx hy h).1
  have hmark : 'b' ∈ (toString n.toInt).toList := by
    rw [heq, toList_byteText]
    exact List.mem_append_right _ List.mem_cons_self
  exact not_mem_toString_int (by decide) (by decide) hmark

theorem separates_text {s t : String} : Separates render (text s) (text t) := by
  intro x y hx hy h
  rw [toList_render_text, toList_render_text] at h
  obtain ⟨hst, rfl⟩ := quoted_append_inj (List.cons.inj h).2
  rw [String.toList_inj.1 hst]
  exact ⟨rfl, rfl⟩

theorem separates_field {j k : String} {v w : Nbt} (hj : IsWord j) (hk : IsWord k)
    (h : Separates render v w) : Separates fieldText (j, v) (k, w) := by
  intro x y hx hy heq
  have htext : ∀ (k : String) (v : Nbt) (x : List Char),
      (fieldText (k, v)).toList ++ x = k.toList ++ ':' :: (v.render.toList ++ x) := by
    intro k v x
    simp [fieldText]
  rw [htext, htext, append_separator_inj (hj.not_mem (by decide)) (hk.not_mem (by decide))] at heq
  obtain ⟨hvalue, rfl⟩ := h hx hy heq.2
  rw [String.toList_inj.1 heq.1, hvalue]
  exact ⟨rfl, rfl⟩

theorem separates_list {items items' : List Nbt} (hitems : ∀ v ∈ items, v.IsTold)
    (hworded : (list ⟨items'⟩).IsWorded) : Separates render (list ⟨items⟩) (list ⟨items'⟩) := by
  intro x y hx hy h
  rw [toList_render_list, toList_render_list] at h
  obtain ⟨rfl, rfl⟩ := joined_inj (by decide) (by decide)
    (fun v hv w hw => hitems v hv w fun k hk => hworded k (mem_itemKeys hw hk))
    (fun v _ => by
      obtain ⟨c, cs, hcs, hc, -⟩ := v.exists_render_cons
      exact ⟨c, cs, hcs, hc⟩)
    (List.cons.inj h).2
  exact ⟨rfl, rfl⟩

theorem separates_bytes {elements elements' : Array Int8} :
    Separates render (bytes elements) (bytes elements') := by
  intro x y hx hy h
  rw [toList_render_bytes, toList_render_bytes] at h
  obtain ⟨heq, rfl⟩ := joined_inj (by decide) (by decide) (fun a _ b _ => separates_byteText)
    (fun b _ => by
      obtain ⟨c, cs, hcs, hc, -⟩ := (byte b).exists_render_cons
      exact ⟨c, cs, hcs, hc⟩)
    (List.cons.inj (List.cons.inj (List.cons.inj h).2).2).2
  rw [Array.toList_inj.1 heq]
  exact ⟨rfl, rfl⟩

theorem separates_compound {fields fields' : List (String × Nbt)}
    (hfields : ∀ f ∈ fields, f.2.IsTold) (hworded : (compound fields).IsWorded)
    (hworded' : (compound fields').IsWorded) :
    Separates render (compound fields) (compound fields') := by
  intro x y hx hy h
  have hkey : ∀ {fields : List (String × Nbt)}, (compound fields).IsWorded → ∀ f ∈ fields,
      IsWord f.1 := fun hworded f hf => hworded f.1 (mem_fieldKeys hf (.inl rfl))
  rw [toList_render_compound, toList_render_compound] at h
  obtain ⟨rfl, rfl⟩ := joined_inj (by decide) (by decide)
    (fun f hf g hg => separates_field (hkey hworded f hf) (hkey hworded' g hg)
      (hfields f hf g.2 fun k hk => hworded' k (mem_fieldKeys hg (.inr hk))))
    (fun f hf => by
      have hword := (List.mem_append.1 hf).elim (hkey hworded f) (hkey hworded' f)
      obtain ⟨c, cs, hcs⟩ := hword.exists_cons
      refine ⟨c, cs ++ ':' :: f.2.render.toList, by simp [fieldText, hcs], ?_⟩
      rintro rfl
      exact hword.not_mem (by decide) (hcs ▸ List.mem_cons_self))
    (List.cons.inj h).2
  exact ⟨rfl, rfl⟩

mutual

/-- Two values whose texts begin a text are the same. -/
theorem isTold : ∀ v : Nbt, v.IsWorded → v.IsTold
  | .int n, _ => by
    intro w _ x y hx hy h
    have hform := form_eq h
    cases w with
    | int m => exact separates_int hx hy h
    | byte b => exact (int_ne_byte hx hy h).elim
    | _ => cases hform
  | .byte b, _ => by
    intro w _ x y hx hy h
    have hform := form_eq h
    cases w with
    | int m => exact (int_ne_byte hy hx h.symm).elim
    | byte a =>
      obtain ⟨rfl, hxy⟩ := separates_byteText hx hy h
      exact ⟨rfl, hxy⟩
    | _ => cases hform
  | .text s, _ => by
    intro w _ x y hx hy h
    have hform := form_eq h
    cases w with
    | text t => exact separates_text hx hy h
    | _ => cases hform
  | .list ⟨items⟩, hv => by
    intro w hw x y hx hy h
    have hform := form_eq h
    cases w with
    | list items' => exact separates_list (isTold_items items hv) hw hx hy h
    | _ => cases hform
  | .bytes elements, _ => by
    intro w _ x y hx hy h
    have hform := form_eq h
    cases w with
    | bytes elements' => exact separates_bytes hx hy h
    | _ => cases hform
  | .compound fields, hv => by
    intro w hw x y hx hy h
    have hform := form_eq h
    cases w with
    | compound fields' => exact separates_compound (isTold_fields fields hv) hv hw hx hy h
    | _ => cases hform

theorem isTold_items : ∀ items : List Nbt, (∀ k ∈ itemKeys items, IsWord k) →
    ∀ v ∈ items, v.IsTold
  | [], _ => fun _ h => nomatch h
  | item :: rest, h => by
    obtain ⟨hitem, hrest⟩ := List.forall_mem_append.1 h
    exact List.forall_mem_cons.2 ⟨isTold item hitem, isTold_items rest hrest⟩

theorem isTold_fields : ∀ fields : List (String × Nbt), (∀ k ∈ fieldKeys fields, IsWord k) →
    ∀ f ∈ fields, f.2.IsTold
  | [], _ => fun _ h => nomatch h
  | (key, v) :: rest, h => by
    obtain ⟨hvalue, hrest⟩ := List.forall_mem_append.1 (List.forall_mem_cons.1 h).2
    exact List.forall_mem_cons.2 ⟨isTold v hvalue, isTold_fields rest hrest⟩

end

theorem render_inj {v w : Nbt} (hv : v.IsWorded) (hw : w.IsWorded) :
    v.render = w.render ↔ v = w := by
  refine ⟨fun h => ?_, congrArg render⟩
  exact (isTold v hv w hw .nil .nil (congrArg (fun s => String.toList s ++ []) h)).1

end Nbt

end WasmPack
