/-
  WasmPack.Proofs.Files.Components

  The steps of paths that are put together.  Joining a path with one that begins
  with a step down adds the steps of the second to those of the first, however
  many slashes and idle dots stand in the two; putting a suffix behind a path
  changes no step but the last.
-/
import WasmPack.Files.Path
import WasmPack.Proofs.Pack.Names
import WasmPack.Proofs.Text.Cutting

namespace WasmPack

theorem Text.segments_slash (s t : String) :
    segments '/' (s ++ "/" ++ t) = segments '/' s ++ segments '/' t :=
  segments_between [] (by decide)

theorem Text.eq_empty_of_segments {s : String} (h : segments '/' s = [""]) : s = "" :=
  segments_inj h

namespace Files

variable {base part path segment : String} {first : String} {rest : List String}

/-! ## Names of entries -/

/-- The text can stand for an entry of a directory: it is neither empty nor one of the two names
    that every directory has for itself and the one above, and it has no slash. -/
structure IsEntry (name : String) : Prop where
  ne_empty : name ≠ ""
  ne_dot : name ≠ "."
  ne_dots : name ≠ ".."
  no_slash : '/' ∉ name.toList

theorem IsEntry.component (h : IsEntry segment) : component? segment = some (.normal segment) := by
  have hidle : isIdle segment = false := by
    simp [isIdle, h.ne_empty, h.ne_dot]
  rw [component?, hidle, if_neg Bool.false_ne_true, if_neg h.ne_dots]

/-- A segment that stands for a step down is the name of an entry. -/
theorem isEntry_of_component {name : String} (hslash : '/' ∉ segment.toList)
    (h : component? segment = some (.normal name)) : IsEntry name := by
  unfold component? at h
  split at h
  · cases h
  · rename_i hidle
    split at h
    · cases h
    · rename_i hdots
      cases h
      rw [isIdle, Bool.or_eq_true, not_or] at hidle
      exact ⟨fun hs => hidle.1 (String.isEmpty_iff.2 hs), fun hs => hidle.2 (decide_eq_true hs),
        hdots, hslash⟩

/-! ## Steps of segments -/

/-- The steps that segments behind the beginning of a path stand for. -/
def steps (segments : List String) : List Component := segments.filterMap component?

theorem steps_append (front back : List String) : steps (front ++ back) = steps front ++ steps back :=
  List.filterMap_append

theorem steps_of_isEntry {names : List String} (h : ∀ name ∈ names, IsEntry name) :
    steps names = names.map .normal := by
  induction names with
  | nil => rfl
  | cons name names ih =>
    have htail := ih fun n hn => h n (List.mem_cons_of_mem name hn)
    rw [steps, List.filterMap_cons_some (h name List.mem_cons_self).component, List.map_cons]
    exact congrArg _ htail

theorem components_root (h : Text.segments '/' path = "" :: rest) (hrest : rest ≠ []) :
    components path = .root :: steps rest := by
  obtain ⟨second, rest, rfl⟩ := List.exists_cons_of_ne_nil hrest
  rw [components, h]
  rfl

theorem components_current (h : Text.segments '/' path = "." :: rest) :
    components path = .current :: steps rest := by
  rw [components, h]
  rfl

theorem components_plain (h : Text.segments '/' path = first :: rest) (hempty : first ≠ "")
    (hdot : first ≠ ".") : components path = steps (first :: rest) := by
  rw [components, h]
  split
  · rename_i heq
    cases heq
  · rename_i heq
    exact absurd (List.cons.inj heq).1 hempty
  · rename_i heq
    exact absurd (List.cons.inj heq).1 hempty
  · rename_i heq
    exact absurd (List.cons.inj heq).1 hdot
  · rfl

/-- What stands behind a slash adds its steps to those in front, where there is something. -/
theorem components_slash (hbase : base ≠ "") :
    components (base ++ "/" ++ part) = components base ++ steps (Text.segments '/' part) := by
  obtain ⟨first, rest, hsegments⟩ := List.exists_cons_of_ne_nil (Text.segments_ne_nil (s := base))
  have hboth : Text.segments '/' (base ++ "/" ++ part) =
      first :: (rest ++ Text.segments '/' part) := by
    rw [Text.segments_slash, hsegments, List.cons_append]
  by_cases hempty : first = ""
  · subst hempty
    have hrest : rest ≠ [] := fun h => hbase (Text.eq_empty_of_segments (h ▸ hsegments))
    rw [components_root hboth (List.append_ne_nil_of_left_ne_nil hrest _),
      components_root hsegments hrest, steps_append, List.cons_append]
  by_cases hdot : first = "."
  · subst hdot
    rw [components_current hboth, components_current hsegments, steps_append, List.cons_append]
  · rw [components_plain hboth hempty hdot, components_plain hsegments hempty hdot,
      ← List.cons_append, steps_append]

/-- A path that ends with a slash is one with nothing behind the slash. -/
theorem eq_slash_of_getLast? (h : base.toList.getLast? = some '/') :
    ∃ front, base = front ++ "/" := by
  obtain ⟨front, hfront⟩ := List.getLast?_eq_some_iff.1 h
  refine ⟨String.ofList front, String.toList_inj.1 ?_⟩
  rw [hfront, String.toList_append, String.toList_ofList]
  rfl

/-- A path whose first segment is not empty does not begin with a slash. -/
theorem head?_ne_slash (hpart : Text.segments '/' part = first :: rest) (hempty : first ≠ "") :
    part.toList.head? ≠ some '/' := by
  intro hhead
  obtain ⟨text, htext⟩ := List.head?_eq_some_iff.1 hhead
  rw [Text.segments, htext, Text.cut, if_pos rfl, List.map_cons] at hpart
  exact hempty (List.cons.inj hpart).1.symm

/-- Joining a path with one that begins with a step adds the steps of the second. -/
theorem components_join (hpart : Text.segments '/' part = first :: rest) (hempty : first ≠ "")
    (hdot : first ≠ ".") : components (join base part) = components base ++ steps (first :: rest) := by
  unfold join
  rw [if_neg (head?_ne_slash hpart hempty)]
  split
  · rename_i hbase
    rw [Bool.or_eq_true] at hbase
    obtain hbase | hbase := hbase
    · rw [String.isEmpty_iff.1 hbase, String.empty_append, components_plain hpart hempty hdot]
      rfl
    · obtain ⟨front, rfl⟩ := eq_slash_of_getLast? (of_decide_eq_true hbase)
      by_cases hfront : front = ""
      · subst hfront
        have hsegments : Text.segments '/' ("" ++ "/" ++ part) = "" :: first :: rest := by
          rw [Text.segments_slash, hpart]
          rfl
        rw [components_root hsegments (List.cons_ne_nil _ _)]
        rfl
      · -- The slash at the end of a path stands for no step.
        have hidle : components (front ++ "/") = components front := by
          have hslash : components (front ++ "/" ++ "") = components front ++ [] :=
            components_slash hfront
          rw [String.append_empty] at hslash
          exact hslash.trans (List.append_nil _)
        rw [components_slash hfront, hidle, hpart]
  · rename_i hbase
    rw [Bool.or_eq_true, not_or] at hbase
    rw [components_slash fun h => hbase.1 (String.isEmpty_iff.2 h), hpart]

theorem components_join_of_isEntry (h : IsEntry part) :
    components (join base part) = components base ++ [.normal part] := by
  have hsegments := Text.segments_of_not_mem h.no_slash
  rw [components_join hsegments h.ne_empty h.ne_dot,
    steps_of_isEntry (List.forall_mem_singleton.2 h)]
  rfl

theorem components_foldl_join {dirs : List String} (h : ∀ d ∈ dirs, IsEntry d) :
    components (dirs.foldl join base) = components base ++ dirs.map .normal := by
  induction dirs generalizing base with
  | nil => exact (List.append_nil _).symm
  | cons d dirs ih =>
    rw [List.foldl_cons, ih fun d' hd' => h d' (List.mem_cons_of_mem d hd'),
      components_join_of_isEntry (h d List.mem_cons_self), List.append_assoc]
    rfl

/-! ## Texts of joined paths -/

/-- Paths that do not begin with a slash all have the same text put in front of them. -/
theorem exists_join_eq (base : String) :
    ∃ front, ∀ part : String, part.toList.head? ≠ some '/' → join base part = front ++ part := by
  by_cases hbase : (base.isEmpty || decide (base.toList.getLast? = some '/')) = true
  · exact ⟨base, fun part hpart => by rw [join, if_neg hpart, if_pos hbase]⟩
  · exact ⟨base ++ "/", fun part hpart => by rw [join, if_neg hpart, if_neg hbase]⟩

/-- Behind an entry comes a slash. -/
theorem join_of_isEntry {front : String} (h : IsEntry segment) (hpart : part.toList.head? ≠ some '/') :
    join (front ++ segment) part = front ++ segment ++ "/" ++ part := by
  have hne : segment.toList ≠ [] := fun hnil => h.ne_empty (String.toList_eq_nil_iff.1 hnil)
  have hlast : (front ++ segment).toList.getLast? ≠ some '/' := by
    rw [String.toList_append, List.getLast?_append_of_ne_nil _ hne]
    exact fun hslash => h.no_slash (List.mem_of_getLast? hslash)
  have hempty : (front ++ segment).isEmpty = false := by
    rw [Bool.eq_false_iff]
    intro hempty
    have hnil := String.toList_eq_nil_iff.2 (String.isEmpty_iff.1 hempty)
    rw [String.toList_append] at hnil
    exact hne (List.append_eq_nil_iff.1 hnil).2
  rw [join, if_neg hpart, hempty, Bool.false_or, if_neg fun hslash => hlast (of_decide_eq_true hslash)]

theorem IsEntry.head?_ne (h : IsEntry segment) : segment.toList.head? ≠ some '/' :=
  fun hslash => h.no_slash (List.mem_of_head? hslash)

/-- Entries below an entry put a text of their own between it and what comes behind them. -/
theorem exists_foldl_join_eq {dirs : List String} (hdirs : ∀ d ∈ dirs, IsEntry d) :
    ∃ middle, ∀ {front segment part : String}, IsEntry segment → part.toList.head? ≠ some '/' →
      join (dirs.foldl join (front ++ segment)) part =
        front ++ segment ++ "/" ++ (middle ++ part) := by
  induction dirs with
  | nil => exact ⟨"", fun h hpart => by rw [String.empty_append]; exact join_of_isEntry h hpart⟩
  | cons d dirs ih =>
    obtain ⟨hd, hdirs⟩ := List.forall_mem_cons.1 hdirs
    obtain ⟨middle, hmiddle⟩ := ih hdirs
    refine ⟨d ++ "/" ++ middle, fun {front segment part} h hpart => ?_⟩
    rw [List.foldl_cons, join_of_isEntry h hd.head?_ne, hmiddle hd hpart]
    simp only [String.append_assoc]

end Files

end WasmPack
