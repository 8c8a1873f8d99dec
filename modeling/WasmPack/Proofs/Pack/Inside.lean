/-
  WasmPack.Proofs.Pack.Inside

  The files of a pack lie inside it.  Whatever name a sequence or a tag has, if it
  has a place at all, then its path goes down from the root of the pack through
  the directories of the namespace, step by step, and no two names share a place.
-/
import WasmPack.Pack.Location
import WasmPack.Proofs.Files.Components

namespace WasmPack

namespace Pack

open Files

variable {root name path suffix : String} {q : QualifiedName}

/-! ## Contained paths -/

/-- A contained path begins with a step down, and none of its segments leads up. -/
theorem segments_of_isContained (h : isContained path = true) :
    (∃ first rest, Text.segments '/' path = first :: rest ∧ first ≠ "" ∧ first ≠ ".") ∧
      ∀ segment ∈ Text.segments '/' path, segment ≠ ".." := by
  rw [isContained, Bool.and_eq_true, Bool.not_eq_true', List.all_eq_true] at h
  obtain ⟨hpath, hsteps⟩ := h
  obtain ⟨first, rest, hsegments⟩ := List.exists_cons_of_ne_nil (Text.segments_ne_nil (s := path))
  have hempty : first ≠ "" := by
    rintro rfl
    cases rest with
    | nil =>
      rw [Text.eq_empty_of_segments hsegments] at hpath
      cases hpath
    | cons second rest =>
      rw [components_root hsegments (List.cons_ne_nil _ _)] at hsteps
      exact Bool.false_ne_true (hsteps _ List.mem_cons_self)
  have hdot : first ≠ "." := by
    rintro rfl
    rw [components_current hsegments] at hsteps
    exact Bool.false_ne_true (hsteps _ List.mem_cons_self)
  refine ⟨⟨first, rest, hsegments, hempty, hdot⟩, ?_⟩
  rintro segment hsegment rfl
  rw [components_plain hsegments hempty hdot, ← hsegments] at hsteps
  have hup : Component.parent ∈ steps (Text.segments '/' path) :=
    List.mem_filterMap.2 ⟨"..", hsegment, rfl⟩
  exact Bool.false_ne_true (hsteps _ hup)

/-- Segments that do not lead up are steps down, but for idle ones. -/
theorem steps_of_ne_dots {segments : List String} (hslash : ∀ s ∈ segments, '/' ∉ s.toList)
    (hdots : ∀ s ∈ segments, s ≠ "..") :
    ∃ names : List String, (∀ n ∈ names, IsEntry n) ∧ steps segments = names.map .normal := by
  induction segments with
  | nil => exact ⟨[], List.forall_mem_nil _, rfl⟩
  | cons segment segments ih =>
    obtain ⟨names, hnames, hsteps⟩ := ih (fun s hs => hslash s (List.mem_cons_of_mem _ hs))
      fun s hs => hdots s (List.mem_cons_of_mem _ hs)
    have hself := hslash segment List.mem_cons_self
    cases hstep : component? segment with
    | none => exact ⟨names, hnames, by rw [← hsteps]; exact List.filterMap_cons_none hstep⟩
    | some step =>
      have hnormal : step = .normal segment := by
        unfold component? at hstep
        split at hstep
        · cases hstep
        · rw [if_neg (hdots segment List.mem_cons_self)] at hstep
          exact (Option.some.inj hstep).symm
      subst hnormal
      refine ⟨segment :: names, List.forall_mem_cons.2 ⟨isEntry_of_component hself hstep, hnames⟩, ?_⟩
      rw [List.map_cons, ← hsteps]
      exact List.filterMap_cons_some hstep

/-! ## Suffixes -/

/-- The text can stand behind the name of a file: it has no slash, and it is too long for a name with
    it to be one of those that every directory has. -/
structure IsSuffix (suffix : String) : Prop where
  no_slash : '/' ∉ suffix.toList
  long : 2 < suffix.length

theorem IsSuffix.isEntry {segment : String} (h : IsSuffix suffix) (hslash : '/' ∉ segment.toList) :
    IsEntry (segment ++ suffix) := by
  have hlength : 2 < (segment ++ suffix).length := by
    have hlong := h.long
    rw [String.length_append]
    omega
  refine ⟨?_, ?_, ?_, fun hmem => ?_⟩
  · exact fun heq => absurd (heq ▸ hlength) (by decide)
  · exact fun heq => absurd (heq ▸ hlength) (by decide)
  · exact fun heq => absurd (heq ▸ hlength) (by decide)
  · rw [String.toList_append, List.mem_append] at hmem
    exact hmem.elim hslash h.no_slash

/-- A contained path with a suffix behind it leads down, wherever it starts. -/
theorem components_join_suffix {base : String} (h : isContained path = true)
    (hsuffix : IsSuffix suffix) : ∃ names : List String, names ≠ [] ∧ (∀ n ∈ names, IsEntry n) ∧
      components (join base (path ++ suffix)) = components base ++ names.map .normal := by
  obtain ⟨⟨first, rest, hfirst, hempty, hdot⟩, hdots⟩ := segments_of_isContained h
  obtain ⟨front, last, hsegments, hlonger⟩ := Text.segments_append_of_not_mem (s := path) hsuffix.no_slash
  have hslash : ∀ s ∈ Text.segments '/' path, '/' ∉ s.toList := by
    intro s hs
    obtain ⟨part, hpart, rfl⟩ := List.mem_map.1 hs
    rw [String.toList_ofList]
    exact Text.not_mem_of_mem_cut hpart
  have hfront : ∀ s ∈ front, s ∈ Text.segments '/' path := fun s hs =>
    hsegments ▸ List.mem_append_left [last] hs
  have hlast := hsuffix.isEntry (hslash last (hsegments ▸ List.mem_append_right front List.mem_cons_self))
  obtain ⟨names, hnames, hsteps⟩ := steps_of_ne_dots (fun s hs => hslash s (hfront s hs))
    fun s hs => hdots s (hfront s hs)
  refine ⟨names ++ [last ++ suffix], List.append_ne_nil_of_right_ne_nil _ (List.cons_ne_nil _ _),
    List.forall_mem_append.2 ⟨hnames, List.forall_mem_singleton.2 hlast⟩, ?_⟩
  have hall : steps (front ++ [last ++ suffix]) = (names ++ [last ++ suffix]).map .normal := by
    rw [steps_append, hsteps, steps_of_isEntry (List.forall_mem_singleton.2 hlast), List.map_append]
  -- The path begins as before, unless its only segment is the one with the suffix.
  cases front with
  | nil =>
    rw [components_join hlonger hlast.ne_empty hlast.ne_dot, ← hall]
    rfl
  | cons segment front =>
    obtain rfl : first = segment := (List.cons.inj (hfirst.symm.trans hsegments)).1
    rw [components_join hlonger hempty hdot, ← hall]
    rfl

/-! ## Names taken apart -/

/-- What is accepted of a name: it is put together from an entry and a contained path. -/
theorem of_splitName (h : splitName name = .ok q) :
    name = q.ns ++ ":" ++ q.path ∧ IsEntry q.ns ∧ isContained q.path = true := by
  unfold splitName at h
  split at h
  · cases h
  · rename_i front back hcut
    simp only at h
    split at h
    · rename_i hok
      cases h
      rw [Bool.and_eq_true, Bool.and_eq_true, Bool.not_eq_true'] at hok
      obtain ⟨⟨hns, hpath⟩, hslash⟩ := hok
      have hno : '/' ∉ (String.ofList front).toList := by
        rw [String.toList_ofList]
        exact fun hmem => Bool.false_ne_true (hslash.symm.trans (List.contains_iff_mem.2 hmem))
      refine ⟨?_, ?_, hpath⟩
      · refine String.toList_inj.1 ?_
        rw [Text.eq_of_cutFirst? hcut]
        simp
      · obtain ⟨⟨first, rest, hfirst, hempty, hdot⟩, hdots⟩ := segments_of_isContained hns
        rw [Text.segments_of_not_mem hno] at hfirst hdots
        obtain ⟨rfl, -⟩ := List.cons.inj hfirst
        exact ⟨hempty, hdot, hdots _ List.mem_cons_self, hno⟩
    · cases h

/-! ## Places below a root -/

/-- The file that directories below that of a namespace have for a name. -/
def place (root : String) (dirs : List String) (suffix : String) (q : QualifiedName) : String :=
  join (dirs.foldl join (dataDir root q.ns)) (q.path ++ suffix)

theorem functionPath_eq_ok : functionPath root name = .ok path ↔
    ∃ q, splitName name = .ok q ∧ place root ["functions"] ".mcfunction" q = path := by
  refine except_bind_eq_ok.trans (exists_congr fun q => and_congr_right fun _ => ?_)
  exact ⟨Except.ok.inj, congrArg Except.ok⟩

theorem tagPath_eq_ok : tagPath root name = .ok path ↔
    ∃ q, splitName name = .ok q ∧ place root ["tags", "functions"] ".json" q = path := by
  refine except_bind_eq_ok.trans (exists_congr fun q => and_congr_right fun _ => ?_)
  exact ⟨Except.ok.inj, congrArg Except.ok⟩

/-- The path goes down from the root through some directories to a file: the steps behind those of the
    root are names of entries, first those of the directories, then at least one more. -/
def LeadsDown (root : String) (dirs : List String) (path : String) : Prop :=
  ∃ names : List String, names ≠ [] ∧ (∀ n ∈ dirs ++ names, IsEntry n) ∧
    components path = components root ++ (dirs ++ names).map .normal

theorem isEntry_data : IsEntry "data" := ⟨by decide, by decide, by decide, by decide⟩

theorem leadsDown_place {dirs : List String} (hdirs : ∀ d ∈ dirs, IsEntry d)
    (hsuffix : IsSuffix suffix) (h : splitName name = .ok q) :
    LeadsDown root ("data" :: q.ns :: dirs) (place root dirs suffix q) := by
  obtain ⟨-, hns, hcontained⟩ := of_splitName h
  obtain ⟨names, hne, hnames, hcomponents⟩ := @components_join_suffix
    q.path suffix (dirs.foldl join (dataDir root q.ns)) hcontained hsuffix
  refine ⟨names, hne, List.forall_mem_append.2 ⟨?_, hnames⟩, ?_⟩
  · exact List.forall_mem_cons.2 ⟨isEntry_data, List.forall_mem_cons.2 ⟨hns, hdirs⟩⟩
  · rw [place, hcomponents, components_foldl_join hdirs, dataDir, components_join_of_isEntry hns,
      components_join_of_isEntry isEntry_data]
    simp

/-! ## Places of different names -/

theorem head?_append_ne (h : isContained path = true) (suffix : String) :
    (path ++ suffix).toList.head? ≠ some '/' := by
  obtain ⟨⟨first, rest, hfirst, hempty, -⟩, -⟩ := segments_of_isContained h
  have hpath : path.toList ≠ [] := by
    intro hnil
    rw [Text.segments, hnil] at hfirst
    exact hempty (List.cons.inj hfirst).1.symm
  rw [String.toList_append, List.head?_append_of_ne_nil _ hpath]
  exact head?_ne_slash hfirst hempty

/-- The text of a place shows what the name was put together from. -/
theorem place_inj {q' : QualifiedName} {other : String} {dirs : List String}
    (hdirs : ∀ d ∈ dirs, IsEntry d) (h : splitName name = .ok q) (h' : splitName other = .ok q')
    (heq : place root dirs suffix q = place root dirs suffix q') : name = other := by
  obtain ⟨hname, hns, hpath⟩ := of_splitName h
  obtain ⟨hname', hns', hpath'⟩ := of_splitName h'
  obtain ⟨front, hfront⟩ := exists_join_eq (join root "data")
  obtain ⟨middle, hmiddle⟩ := exists_foldl_join_eq hdirs
  -- The namespace stands between a text that the root gives and a slash.
  have htext : ∀ {q : QualifiedName}, IsEntry q.ns → isContained q.path = true →
      place root dirs suffix q = front ++ q.ns ++ "/" ++ (middle ++ (q.path ++ suffix)) := by
    intro q hns hpath
    rw [place, dataDir, hfront _ hns.head?_ne, hmiddle hns (head?_append_ne hpath suffix)]
  have hboth := congrArg String.toList ((htext hns hpath).symm.trans (heq.trans (htext hns' hpath')))
  have hslash : "/".toList = ['/'] := rfl
  simp only [String.toList_append, List.append_assoc, List.append_cancel_left_eq, hslash,
    List.singleton_append] at hboth
  obtain ⟨hnsEq, hpathEq⟩ := (append_separator_inj hns.no_slash hns'.no_slash).1 hboth
  rw [List.append_cancel_left_eq, List.append_cancel_right_eq] at hpathEq
  rw [hname, hname', String.toList_inj.1 hnsEq, String.toList_inj.1 hpathEq]

/-! ## Places of sequences and tags -/

theorem isEntry_functions : IsEntry "functions" := ⟨by decide, by decide, by decide, by decide⟩

theorem isEntry_tags : IsEntry "tags" := ⟨by decide, by decide, by decide, by decide⟩

/-- **Paths stay inside the pack.**  The file of a sequence, or of a tag, lies below the root: its
    path goes down from there through the directory of one namespace, by steps that are names of
    entries.  No other name has the same place. -/
theorem places_inside (root name path : String) :
    (functionPath root name = .ok path →
      (∃ ns, LeadsDown root ["data", ns, "functions"] path) ∧
        ∀ other, functionPath root other = .ok path → other = name) ∧
    (tagPath root name = .ok path →
      (∃ ns, LeadsDown root ["data", ns, "tags", "functions"] path) ∧
        ∀ other, tagPath root other = .ok path → other = name) := by
  have hfunctions : ∀ d ∈ ["functions"], IsEntry d := List.forall_mem_singleton.2 isEntry_functions
  have htags : ∀ d ∈ ["tags", "functions"], IsEntry d :=
    List.forall_mem_cons.2 ⟨isEntry_tags, hfunctions⟩
  constructor
  · intro h
    obtain ⟨q, hq, rfl⟩ := functionPath_eq_ok.1 h
    refine ⟨⟨q.ns, leadsDown_place hfunctions ⟨by decide, by decide⟩ hq⟩, fun other hother => ?_⟩
    obtain ⟨q', hq', heq⟩ := functionPath_eq_ok.1 hother
    exact place_inj hfunctions hq' hq heq
  · intro h
    obtain ⟨q, hq, rfl⟩ := tagPath_eq_ok.1 h
    refine ⟨⟨q.ns, leadsDown_place htags ⟨by decide, by decide⟩ hq⟩, fun other hother => ?_⟩
    obtain ⟨q', hq', heq⟩ := tagPath_eq_ok.1 hother
    exact place_inj htags hq' hq heq

/-- A path with idle steps, below a root with one: the suffix makes a name of the dot at its end. -/
theorem places_inside_idle_steps :
    functionPath "out/." "demo:a//b/." = .ok "out/./data/demo/functions/a//b/..mcfunction" ∧
      (∃ ns, LeadsDown "out/." ["data", ns, "functions"]
        "out/./data/demo/functions/a//b/..mcfunction") ∧
      tagPath "out/." "demo:a//b/." = .ok "out/./data/demo/tags/functions/a//b/..json" ∧
      ∃ ns, LeadsDown "out/." ["data", ns, "tags", "functions"]
        "out/./data/demo/tags/functions/a//b/..json" := by
  have hfunction : functionPath "out/." "demo:a//b/." =
      .ok "out/./data/demo/functions/a//b/..mcfunction" := by decide
  have htag : tagPath "out/." "demo:a//b/." = .ok "out/./data/demo/tags/functions/a//b/..json" := by
    decide
  exact ⟨hfunction, ((places_inside _ _ _).1 hfunction).1, htag, ((places_inside _ _ _).2 htag).1⟩

end Pack

end WasmPack
