/-
  WasmPack.Proofs.Command.Pieces

  The pieces that commands are written with are told from their texts: registers,
  the signs of operations and comparisons, ranges by what stands between their
  dots, and paths segment by segment.
-/
import WasmPack.Proofs.Command.Words

namespace WasmPack

open Text

variable {ns : String}

/-! ## Registers and signs -/

namespace Register

/-- The registers that have names of their own. -/
def named : List Register :=
  [a, b, c, d, e, f, index, address, brDepth, pageFault, targetPage, targetAddress, swap]

theorem mem_named (r : Register) : r ∈ named ∨ ∃ n, r = const n := by
  cases r with
  | const n => exact .inr ⟨n, rfl⟩
  | _ => exact .inl (by decide)

theorem name_inj {q r : Register} : q.name = r.name ↔ q = r := by
  have hnumber : ∀ {r : Register} {n : Int32}, r.name = (const n).name → r = const n := by
    intro r n h
    obtain ⟨name, hname, -, -, hconst⟩ := r.exists_name
    refine hconst n ?_
    have htext : (const n).name.toList = '#' :: (toString n.toInt).toList := by simp [Register.name]
    exact (List.cons.inj (htext.symm.trans ((congrArg String.toList h).symm.trans hname))).2
  have hnamed : ∀ q ∈ named, ∀ r ∈ named, q.name = r.name → q = r := by decide +kernel
  refine ⟨fun h => ?_, congrArg name⟩
  obtain hr | ⟨n, rfl⟩ := r.mem_named
  · obtain hq | ⟨n, rfl⟩ := q.mem_named
    · exact hnamed q hq r hr h
    · exact (hnumber h.symm).symm
  · exact hnumber h

end Register

theorem ScoreOp.sign_inj {op op' : ScoreOp} : op.sign = op'.sign ↔ op = op' := by
  constructor
  · cases op <;> cases op' <;> first | exact fun _ => rfl | exact fun h => absurd h (by decide)
  · rintro rfl
    rfl

theorem Compare.sign_inj {op op' : Compare} : op.sign = op'.sign ↔ op = op' := by
  constructor
  · cases op <;> cases op' <;> first | exact fun _ => rfl | exact fun h => absurd h (by decide)
  · rintro rfl
    rfl

/-- No sign of a comparison reads like the word of the other condition. -/
theorem Compare.sign_ne (op : Compare) : op.sign ≠ "matches" := by
  cases op <;> decide

theorem NumericTag.name_inj {tag tag' : NumericTag} : tag.name = tag'.name ↔ tag = tag' := by
  constructor
  · cases tag <;> cases tag' <;> first | exact fun _ => rfl | exact fun h => absurd h (by decide)
  · rintro rfl
    rfl

theorem StoreKind.name_inj {kind kind' : StoreKind} : kind.name = kind'.name ↔ kind = kind' := by
  constructor
  · cases kind <;> cases kind' <;> first | exact fun _ => rfl | exact fun h => absurd h (by decide)
  · rintro rfl
    rfl

theorem Tag.name_inj {tag tag' : Tag} : tag.name = tag'.name ↔ tag = tag' := by
  constructor
  · cases tag <;> cases tag' <;> first | exact fun _ => rfl | exact fun h => absurd h (by decide)
  · rintro rfl
    rfl

theorem toString_int32_inj {m n : Int32} : toString m.toInt = toString n.toInt ↔ m = n := by
  refine ⟨fun h => Int32.toInt_inj.1 (toString_int_inj h), ?_⟩
  rintro rfl
  rfl

/-! ## Ranges -/

/-- What stands between the dots of a range. -/
def Range.parts : Range → List String
  | ⟨some lo, some hi⟩ =>
    if lo = hi then [toString lo.toInt] else [toString lo.toInt, "", toString hi.toInt]
  | ⟨some lo, none⟩ => [toString lo.toInt, "", ""]
  | ⟨none, some hi⟩ => ["", "", toString hi.toInt]
  | ⟨none, none⟩ => ["", "", ""]

theorem segments_dots (range : Range) : segments '.' range.render = range.parts := by
  have hint : ∀ n : Int, segments '.' (toString n) = [toString n] := fun n =>
    segments_of_not_mem (not_mem_toString_int (by decide) (by decide))
  have hdots : segments '.' ".." = ["", "", ""] := by decide
  obtain ⟨lo, hi⟩ := range
  cases lo with
  | none =>
    cases hi with
    | none => exact hdots
    | some hi => exact (segments_front ["", ""] hdots).trans (congrArg _ (hint hi.toInt))
  | some lo =>
    cases hi with
    | none => exact (segments_back ["", ""] hdots).trans (congrArg (· ++ ["", ""]) (hint lo.toInt))
    | some hi =>
      rw [Range.render, Range.parts]
      split
      · exact hint lo.toInt
      · rw [segments_between [""] hdots, hint, hint]
        rfl

theorem toString_int_ne_empty (n : Int) : toString n ≠ "" := by
  obtain ⟨c, cs, hcs, -⟩ := toString_int_cons n
  intro h
  rw [h] at hcs
  cases hcs

/-- The text of an end of a range; an open end has none. -/
def Range.endText : Option Int32 → String
  | none => ""
  | some n => toString n.toInt

theorem Range.endText_inj {m n : Option Int32} (h : endText m = endText n) : m = n := by
  cases m with
  | none =>
    cases n with
    | none => rfl
    | some n => exact absurd h.symm (toString_int_ne_empty n.toInt)
  | some m =>
    cases n with
    | none => exact absurd h (toString_int_ne_empty m.toInt)
    | some n => rw [toString_int32_inj.1 h]

/-- The ends of a range stand at the ends of its text, in one number if they are the same. -/
theorem Range.ends_parts (range : Range) : range.parts.head? = some (endText range.min) ∧
    range.parts.getLast? = some (endText range.max) := by
  obtain ⟨lo, hi⟩ := range
  cases lo with
  | none => cases hi <;> exact ⟨rfl, rfl⟩
  | some lo =>
    cases hi with
    | none => exact ⟨rfl, rfl⟩
    | some hi =>
      rw [parts]
      split
      · rename_i heq
        subst heq
        exact ⟨rfl, rfl⟩
      · exact ⟨rfl, rfl⟩

theorem Range.render_inj {range range' : Range} :
    range.render = range'.render ↔ range = range' := by
  refine ⟨fun h => ?_, congrArg render⟩
  have hparts : range.parts = range'.parts := by rw [← segments_dots, h, segments_dots]
  obtain ⟨hmin, hmax⟩ := range.ends_parts
  obtain ⟨hmin', hmax'⟩ := range'.ends_parts
  rw [hparts] at hmin hmax
  have hlo := endText_inj (Option.some.inj (hmin.symm.trans hmin'))
  have hhi := endText_inj (Option.some.inj (hmax.symm.trans hmax'))
  exact congr (congrArg Range.mk hlo) hhi

/-! ## Paths -/

theorem toList_segmentsText_key {k : String} (hk : IsWord k) (first : Bool) (rest : List Segment) :
    (Path.segmentsText first (.key k :: rest)).toList =
      (if first then [] else ['.']) ++ (k.toList ++ (Path.segmentsText false rest).toList) := by
  have hfirst : (first && k.isEmpty) = false := by simp [hk.1]
  rw [Path.segmentsText, hfirst]
  cases first <;> simp

theorem toList_segmentsText_index (i : Int32) (first : Bool) (rest : List Segment) :
    (Path.segmentsText first (.index i :: rest)).toList =
      '[' :: ((toString i.toInt).toList ++ ']' :: (Path.segmentsText false rest).toList) := by
  simp [Path.segmentsText]

/-- Behind a segment the text ends, or the sign of the next one stands. -/
theorem ends_segmentsText {segments : List Segment} (h : ∀ k, .key k ∈ segments → IsWord k) :
    Ends isWordChar (Path.segmentsText false segments).toList := by
  cases segments with
  | nil => exact .nil
  | cons s segments =>
    cases s with
    | key k =>
      rw [toList_segmentsText_key (h k List.mem_cons_self)]
      exact .cons (by decide)
    | index i =>
      rw [toList_segmentsText_index]
      exact .cons (by decide)

/-- A key with what stands behind it does not begin with a bracket. -/
theorem key_ne_index {k : String} (hk : IsWord k) {first : Bool} {x y : List Char} :
    (if first then [] else ['.']) ++ (k.toList ++ x) ≠ '[' :: y := by
  obtain ⟨c, cs, hcs⟩ := hk.exists_cons
  intro h
  cases first with
  | false => exact absurd (List.cons.inj h).1 (by decide)
  | true =>
    have hbracket : '[' ∈ k.toList := by
      rw [hcs] at h ⊢
      rw [(List.cons.inj h).1]
      exact List.mem_cons_self
    exact hk.not_mem (by decide) hbracket

theorem segmentsText_ne_nil {s : Segment} (h : ∀ k, s = .key k → IsWord k) (first : Bool)
    (rest : List Segment) : (Path.segmentsText first (s :: rest)).toList ≠ [] := by
  cases s with
  | key k =>
    obtain ⟨c, cs, hcs⟩ := (h k rfl).exists_cons
    rw [toList_segmentsText_key (h k rfl), hcs]
    simp
  | index i =>
    rw [toList_segmentsText_index]
    exact List.cons_ne_nil _ _

/-- The segments of a path are told from its text. -/
theorem segmentsText_inj {segments segments' : List Segment} {first : Bool}
    (h : ∀ k, .key k ∈ segments → IsWord k) (h' : ∀ k, .key k ∈ segments' → IsWord k)
    (heq : (Path.segmentsText first segments).toList = (Path.segmentsText first segments').toList) :
    segments = segments' := by
  induction segments generalizing segments' first with
  | nil =>
    cases segments' with
    | nil => rfl
    | cons s' segments' =>
      exact absurd heq.symm (segmentsText_ne_nil (fun k hk => h' k (hk ▸ List.mem_cons_self)) _ _)
  | cons s segments ih =>
    have hrest : ∀ k, .key k ∈ segments → IsWord k := fun k hk => h k (List.mem_cons_of_mem s hk)
    cases segments' with
    | nil => exact absurd heq (segmentsText_ne_nil (fun k hk => h k (hk ▸ List.mem_cons_self)) _ _)
    | cons s' segments' =>
      have hrest' : ∀ k, .key k ∈ segments' → IsWord k := fun k hk =>
        h' k (List.mem_cons_of_mem s' hk)
      cases s with
      | key k =>
        have hk := h k List.mem_cons_self
        rw [toList_segmentsText_key hk] at heq
        cases s' with
        | key k' =>
          have hk' := h' k' List.mem_cons_self
          rw [toList_segmentsText_key hk', List.append_cancel_left_eq] at heq
          -- A key ends at the first character that no word has, an index at its bracket.
          obtain ⟨hkey, htail⟩ := append_ends_inj (fun _ => hk.isWordChar) (fun _ => hk'.isWordChar)
            (ends_segmentsText hrest) (ends_segmentsText hrest') heq
          rw [String.toList_inj.1 hkey, ih hrest hrest' htail]
        | index i' =>
          rw [toList_segmentsText_index] at heq
          exact absurd heq (key_ne_index hk)
      | index i =>
        rw [toList_segmentsText_index] at heq
        cases s' with
        | key k' =>
          have hk' := h' k' List.mem_cons_self
          rw [toList_segmentsText_key hk'] at heq
          exact absurd heq.symm (key_ne_index hk')
        | index i' =>
          rw [toList_segmentsText_index, List.cons.injEq,
            append_separator_inj (not_mem_toString_int (by decide) (by decide))
              (not_mem_toString_int (by decide) (by decide)), String.toList_inj,
            toString_int32_inj] at heq
          rw [heq.2.1, ih hrest hrest' heq.2.2]

theorem Storage.id_inj (hns : ns ≠ sharedNamespace) {st st' : Storage} :
    st.id ns = st'.id ns ↔ st = st' := by
  have hown : ns ++ ":__internal" ≠ sharedNamespace ++ ":__internal" := by
    intro h
    have htext := congrArg String.toList h
    rw [String.toList_append, String.toList_append, List.append_cancel_right_eq,
      String.toList_inj] at htext
    exact hns htext
  refine ⟨fun h => ?_, congrArg (id ns)⟩
  cases st <;> cases st' <;> first | rfl | exact absurd h hown | exact absurd h.symm hown

/-- A path is told from its words. -/
theorem Path.told (hns : ns ≠ sharedNamespace) {p q : Path} (hp : p.IsWorded) (hq : q.IsWorded)
    (hid : p.storage.id ns = q.storage.id ns) (htext : p.text = q.text) : p = q := by
  have hkeys : ∀ {p : Path}, p.IsWorded → ∀ k, .key k ∈ p.segments → IsWord k :=
    fun hp k hk => hp k (List.mem_filterMap.2 ⟨_, hk, rfl⟩)
  have hsegments := segmentsText_inj (hkeys hp) (hkeys hq) (congrArg String.toList htext)
  exact congr (congrArg Path.mk ((Storage.id_inj hns).1 hid)) hsegments

end WasmPack
