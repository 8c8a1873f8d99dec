/-
  WasmPack.Proofs.Text.Cutting

  Cutting a text at a separator.  What stands between the separators is found
  again whatever it is made of, two texts that are cut into the same parts are the
  same, and where a text is put together from two, only the last part of the first
  and the first part of the second grow together.
-/
import WasmPack.Text.Segments

namespace WasmPack.Text

variable {separator c : Char} {front back text more part last first : List Char}
  {parts rest : List (List Char)}

/-! ## Parts -/

theorem cut_of_not_mem (h : separator ∉ text) : cut separator text = [text] := by
  induction text with
  | nil => rfl
  | cons c text ih =>
    rw [List.mem_cons, not_or] at h
    rw [cut, if_neg (Ne.symm h.1), ih h.2]

theorem cut_ne_nil : cut separator text ≠ [] := by
  cases text with
  | nil => exact List.cons_ne_nil _ _
  | cons c text =>
    rw [cut]
    split
    · exact List.cons_ne_nil _ _
    · split <;> exact List.cons_ne_nil _ _

/-- A text is cut at a separator in it, and on both sides on its own. -/
theorem cut_append : cut separator (front ++ separator :: back) =
    cut separator front ++ cut separator back := by
  induction front with
  | nil => exact if_pos rfl
  | cons c front ih =>
    rw [List.cons_append, cut, cut]
    split
    · rw [ih, List.cons_append]
    · rw [ih]
      cases hfront : cut separator front with
      | nil => exact absurd hfront cut_ne_nil
      | cons part parts => rfl

/-- Where two texts meet, a part of each becomes one. -/
theorem cut_append_of_cut (htext : cut separator text = parts ++ [last])
    (hmore : cut separator more = first :: rest) :
    cut separator (text ++ more) = parts ++ (last ++ first) :: rest := by
  induction text generalizing parts last with
  | nil =>
    obtain ⟨rfl, hlast⟩ := @List.append_inj' _ [] _ _ _ htext rfl
    rw [← List.singleton_inj.1 hlast]
    exact hmore
  | cons c text ih =>
    rw [cut] at htext
    rw [List.cons_append, cut]
    split at htext
    · rename_i hc
      rw [if_pos hc]
      cases parts with
      | nil => exact absurd (List.cons.inj htext).2 cut_ne_nil
      | cons part parts =>
        obtain ⟨rfl, htail⟩ := List.cons.inj htext
        rw [ih htail]
        rfl
    · rename_i hc
      rw [if_neg hc]
      cases hcut : cut separator text with
      | nil => exact absurd hcut cut_ne_nil
      | cons part more =>
        rw [hcut] at htext
        cases parts with
        | nil =>
          obtain ⟨rfl, rfl⟩ := List.cons.inj htext
          rw [@ih _ [] hcut]
          rfl
        | cons part' parts =>
          obtain ⟨rfl, rfl⟩ := List.cons.inj htext
          rw [@ih _ (part :: parts) hcut]
          rfl

/-- Parts without the separator are what their joined text is cut into. -/
theorem cut_intercalate (hne : parts ≠ []) (h : ∀ part ∈ parts, separator ∉ part) :
    cut separator (List.intercalate [separator] parts) = parts := by
  induction parts with
  | nil => exact absurd rfl hne
  | cons part parts ih =>
    have hpart := cut_of_not_mem (h part List.mem_cons_self)
    cases parts with
    | nil => rw [List.intercalate_singleton, hpart]
    | cons next parts =>
      have htail := ih (List.cons_ne_nil _ _) fun q hq => h q (List.mem_cons_of_mem part hq)
      rw [List.intercalate_cons_cons, List.append_assoc, List.singleton_append, cut_append, hpart,
        htail, List.singleton_append]

/-- The parts of a text, with separators between them, are the text. -/
theorem intercalate_cut : List.intercalate [separator] (cut separator text) = text := by
  induction text with
  | nil => rfl
  | cons c text ih =>
    rw [cut]
    cases hcut : cut separator text with
    | nil => exact absurd hcut cut_ne_nil
    | cons part parts =>
      rw [hcut] at ih
      split
      · rename_i hc
        rw [List.intercalate_cons_cons, ih, hc]
        rfl
      · -- The character joins the first part, on whichever side of a separator the text goes on.
        cases parts with
        | nil =>
          rw [List.intercalate_singleton] at ih
          rw [List.intercalate_singleton, ih]
        | cons next parts =>
          rw [List.intercalate_cons_cons] at ih
          rw [List.intercalate_cons_cons, List.cons_append, List.cons_append, ih]

theorem cut_inj (h : cut separator text = cut separator more) : text = more := by
  rw [← @intercalate_cut separator text, h, intercalate_cut]

/-! ## Characters of parts -/

/-- No part of a text has the separator. -/
theorem not_mem_of_mem_cut (h : part ∈ cut separator text) : separator ∉ part := by
  induction text generalizing part with
  | nil =>
    rw [List.mem_singleton.1 h]
    exact List.not_mem_nil
  | cons c text ih =>
    rw [cut] at h
    split at h
    · obtain rfl | h := List.mem_cons.1 h
      · exact List.not_mem_nil
      · exact ih h
    · rename_i hc
      split at h
      · rw [List.mem_singleton.1 h]
        exact fun hmem => hc (List.mem_singleton.1 hmem).symm
      · rename_i first parts hcut
        obtain rfl | h := List.mem_cons.1 h
        · refine fun hmem => (List.mem_cons.1 hmem).elim (fun heq => hc heq.symm) ?_
          exact ih (hcut ▸ List.mem_cons_self)
        · exact ih (hcut ▸ List.mem_cons_of_mem first h)

/-- A character of a text is a separator, or stands in one of the parts. -/
theorem mem_cut (h : c ∈ text) : c = separator ∨ ∃ part ∈ cut separator text, c ∈ part := by
  induction text with
  | nil => cases h
  | cons d text ih =>
    rw [cut]
    split
    · rename_i hd
      obtain rfl | h := List.mem_cons.1 h
      · exact .inl hd
      · obtain h | ⟨part, hpart, h⟩ := ih h
        · exact .inl h
        · exact .inr ⟨part, List.mem_cons_of_mem _ hpart, h⟩
    · split
      · rename_i hcut
        exact absurd hcut cut_ne_nil
      · rename_i part parts hcut
        obtain rfl | h := List.mem_cons.1 h
        · exact .inr ⟨_, List.mem_cons_self, List.mem_cons_self⟩
        · obtain h | ⟨part', hpart, h⟩ := ih h
          · exact .inl h
          · rw [hcut] at hpart
            obtain rfl | hpart := List.mem_cons.1 hpart
            · exact .inr ⟨_, List.mem_cons_self, List.mem_cons_of_mem _ h⟩
            · exact .inr ⟨part', List.mem_cons_of_mem _ hpart, h⟩

/-- The parts of a text have its characters. -/
theorem mem_of_mem_cut (hpart : part ∈ cut separator text) (hc : c ∈ part) : c ∈ text := by
  induction text generalizing part with
  | nil =>
    rw [List.mem_singleton.1 hpart] at hc
    exact hc
  | cons d text ih =>
    rw [cut] at hpart
    split at hpart
    · obtain rfl | hpart := List.mem_cons.1 hpart
      · cases hc
      · exact List.mem_cons_of_mem d (ih hpart hc)
    split at hpart
    · rw [List.mem_singleton.1 hpart] at hc
      rw [List.mem_singleton.1 hc]
      exact List.mem_cons_self
    · rename_i first parts hcut
      obtain rfl | hpart := List.mem_cons.1 hpart
      · obtain rfl | hc := List.mem_cons.1 hc
        · exact List.mem_cons_self
        · exact List.mem_cons_of_mem d (ih (hcut ▸ List.mem_cons_self) hc)
      · exact List.mem_cons_of_mem d (ih (hcut ▸ List.mem_cons_of_mem first hpart) hc)

/-! ## The first cut -/

theorem cutFirst?_append (h : separator ∉ front) :
    cutFirst? separator (front ++ separator :: back) = some (front, back) := by
  induction front with
  | nil => exact if_pos rfl
  | cons c front ih =>
    rw [List.mem_cons, not_or] at h
    rw [List.cons_append, cutFirst?, if_neg (Ne.symm h.1), ih h.2]
    rfl

/-- The parts in front of and behind a separator make up the text. -/
theorem eq_of_cutFirst? (h : cutFirst? separator text = some (front, back)) :
    text = front ++ separator :: back := by
  induction text generalizing front with
  | nil => cases h
  | cons c text ih =>
    rw [cutFirst?] at h
    split at h
    · rename_i hc
      cases h
      rw [hc, List.nil_append]
    · obtain ⟨⟨front', back'⟩, hcut, heq⟩ := Option.map_eq_some_iff.1 h
      cases heq
      rw [ih hcut, List.cons_append]

/-! ## Segments -/

section Segments

variable {s t last first : String} {front rest : List String}

theorem segments_ne_nil : segments separator s ≠ [] := fun h => cut_ne_nil (List.map_eq_nil_iff.1 h)

theorem segments_of_not_mem (h : separator ∉ s.toList) : segments separator s = [s] := by
  rw [segments, cut_of_not_mem h, List.map_singleton, String.ofList_toList]

/-- A text is told from its segments. -/
theorem segments_inj (h : segments separator s = segments separator t) : s = t :=
  String.toList_inj.1 (cut_inj ((List.map_inj_right fun _ _ => String.ofList_inj.1).1 h))

/-- Where two texts meet, a segment of each becomes one. -/
theorem segments_append (hs : segments separator s = front ++ [last])
    (ht : segments separator t = first :: rest) :
    segments separator (s ++ t) = front ++ (last ++ first) :: rest := by
  obtain ⟨parts, ends, hcut, rfl, hends⟩ := List.map_eq_append_iff.1 hs
  obtain ⟨part, rfl, rfl⟩ := List.map_eq_singleton_iff.1 hends
  obtain ⟨part', parts', hcut', rfl, rfl⟩ := List.map_eq_cons_iff.1 ht
  rw [segments, String.toList_append, cut_append_of_cut hcut hcut', List.map_append, List.map_cons,
    String.ofList_append]

/-- Behind a separator the segments of the rest stand on their own. -/
theorem segments_front (front : List String) (hs : segments separator s = front ++ [""]) :
    segments separator (s ++ t) = front ++ segments separator t := by
  obtain ⟨first, rest, ht⟩ := List.exists_cons_of_ne_nil (@segments_ne_nil separator t)
  rw [segments_append hs ht, ht, String.empty_append]

/-- So do the segments in front of a separator. -/
theorem segments_back (rest : List String) (ht : segments separator t = "" :: rest) :
    segments separator (s ++ t) = segments separator s ++ rest := by
  have hs := List.dropLast_concat_getLast (@segments_ne_nil separator s)
  rw [segments_append hs.symm ht, String.append_empty, ← List.singleton_append,
    ← List.append_assoc, hs]

/-- Between two texts stand the segments of what begins and ends with a separator. -/
theorem segments_between (mid : List String) {m : String}
    (hm : segments separator m = "" :: (mid ++ [""])) :
    segments separator (s ++ m ++ t) = segments separator s ++ (mid ++ segments separator t) := by
  have hfront := segments_back (s := s) (mid ++ [""]) hm
  rw [← List.append_assoc] at hfront
  rw [segments_front _ hfront, List.append_assoc]

/-- A text without a separator belongs to the last segment. -/
theorem segments_append_of_not_mem (h : separator ∉ t.toList) :
    ∃ front last, segments separator s = front ++ [last] ∧
      segments separator (s ++ t) = front ++ [last ++ t] :=
  have hs := (List.dropLast_concat_getLast (@segments_ne_nil separator s)).symm
  ⟨_, _, hs, segments_append hs (segments_of_not_mem h)⟩

end Segments

end WasmPack.Text
