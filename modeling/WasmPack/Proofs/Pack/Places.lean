/-
  WasmPack.Proofs.Pack.Places

  Where the sequences of a module lie in a pack.  The test of namespaces lets two
  through that stand for directories which have a name already; in every other
  namespace all names have a place, and writing them fails for no reason but one
  that the system gives.
-/
import WasmPack.Proofs.Closed.Known
import WasmPack.Proofs.Pack.Names
import WasmPack.Proofs.Pack.Writing

namespace WasmPack.Pack

open Compile Files

variable {root ns name path : String}

/-! ## Paths that only go down -/

/-- The two tests agree: a path of segments that may stand in a name goes down with each of them. -/
theorem isContained_of_isNamePath (h : IsNamePath path) : isContained path = true := by
  have hsegments : ∀ segment ∈ Text.segments '/' path, isNameSegment segment.toList = true := by
    intro segment hs
    obtain ⟨part, hpart, rfl⟩ := List.mem_map.1 hs
    rw [String.toList_ofList]
    exact List.all_eq_true.1 h part hpart
  have hempty : path.isEmpty = false := by
    rw [Bool.eq_false_iff]
    intro hempty
    rw [String.isEmpty_iff.1 hempty] at h
    revert h
    decide
  rw [isContained, hempty, Bool.not_false, Bool.true_and, List.all_eq_true]
  intro step hstep
  -- Where a path begins with a slash or a dot, its first segment is none that names may have.
  unfold components at hstep
  split at hstep
  · cases hstep
  · rename_i hcut
    exact absurd (hsegments "" (hcut ▸ List.mem_cons_self)) (by decide)
  · rename_i hcut
    exact absurd (hsegments "" (hcut ▸ List.mem_cons_self)) (by decide)
  · rename_i hcut
    exact absurd (hsegments "." (hcut ▸ List.mem_cons_self)) (by decide)
  · obtain ⟨segment, hs, hstep⟩ := List.mem_filterMap.1 hstep
    unfold component? at hstep
    split at hstep
    · cases hstep
    split at hstep
    · rename_i hdots
      exact absurd (hsegments segment hs) (by rw [hdots]; decide)
    · cases hstep
      rfl

/-! ## Namespaces -/

/-- An accepted namespace is a segment that may stand in a name, but for two of them. -/
theorem isNameSegment_iff (h : checkNamespace ns = .ok ()) :
    isNameSegment ns.toList = true ↔ ns ≠ "." ∧ ns ≠ ".." := by
  have hdot : ns = "." ↔ ns.toList = ['.'] := by rw [← String.toList_inj]; rfl
  have hdots : ns = ".." ↔ ns.toList = ['.', '.'] := by rw [← String.toList_inj]; rfl
  unfold checkNamespace at h
  split at h
  · cases h
  split at h
  · cases h
  · rename_i hn
    simp only [Bool.or_eq_true, not_or, Bool.not_eq_true', Bool.not_eq_false,
      String.isEmpty_iff] at hn
    have hempty : ns.toList ≠ [] := fun hnil => hn.1.1 (String.toList_eq_nil_iff.1 hnil)
    simp [isNameSegment, hempty, hn.2, hdot, hdots]

theorem isNameChar_of_isNameSegment (h : isNameSegment ns.toList = true) :
    ∀ c ∈ ns.toList, isNameChar c = true := by
  simp only [isNameSegment, Bool.and_eq_true] at h
  exact List.all_eq_true.1 h.2

theorem nulFree_of_isNameSegment (h : isNameSegment ns.toList = true) : NulFree ns :=
  fun hnul => absurd (isNameChar_of_isNameSegment h _ hnul) (by decide)

theorem splitName_of_colon (hns : ':' ∉ ns.toList) : splitName (ns ++ ":" ++ path) =
    if isContained ns && isContained path && !ns.toList.contains '/' then .ok ⟨ns, path⟩
      else .error (.escaping (ns ++ ":" ++ path)) := by
  have htext : (ns ++ ":" ++ path).toList = ns.toList ++ ':' :: path.toList := by simp
  unfold splitName
  rw [htext, Text.cutFirst?_append hns]
  simp only [String.ofList_toList]
  rfl

theorem nulFree_of_isNamePath (h : IsNamePath path) : NulFree path := by
  intro hnul
  obtain hslash | ⟨part, hpart, hnul⟩ := @Text.mem_cut '/' _ _ hnul
  · exact absurd hslash (by decide)
  · have hsegment := List.all_eq_true.1 h part hpart
    simp only [isNameSegment, Bool.and_eq_true] at hsegment
    exact absurd (List.all_eq_true.1 hsegment.2 _ hnul) (by decide)

/-! ## Places of names -/

/-- The name has a place in every pack, as a sequence and as a tag. -/
def HasPlace (name : String) : Prop :=
  ∀ root, (∃ path, functionPath root name = .ok path) ∧ ∃ path, tagPath root name = .ok path

theorem hasPlace_iff : HasPlace name ↔ ∃ q, splitName name = .ok q := by
  constructor
  · intro h
    obtain ⟨path, hpath⟩ := (h "").1
    obtain ⟨q, hq, -⟩ := except_bind_eq_ok.1 hpath
    exact ⟨q, hq⟩
  · rintro ⟨q, hq⟩ root
    exact ⟨⟨_, except_bind_eq_ok.2 ⟨q, hq, rfl⟩⟩, ⟨_, except_bind_eq_ok.2 ⟨q, hq, rfl⟩⟩⟩

/-- A path in a namespace has a place if the namespace is a segment that may stand in a name. -/
theorem splitName_of_isPathIn (hns : isNameSegment ns.toList = true) (h : IsPathIn ns name) :
    ∃ path, splitName name = .ok ⟨ns, path⟩ ∧ NulFree path := by
  have hchars := isNameChar_of_isNameSegment hns
  obtain ⟨path, rfl, hpath⟩ := h
  refine ⟨path, ?_, nulFree_of_isNamePath hpath⟩
  -- The first colon is the one behind the namespace, so the name is cut where it was put together.
  have hcolon : ':' ∉ ns.toList := fun hc => absurd (hchars _ hc) (by decide)
  have hslash : ns.toList.contains '/' = false := by
    rw [Bool.eq_false_iff]
    exact fun hc => absurd (hchars _ (List.contains_iff_mem.1 hc)) (by decide)
  rw [splitName_of_colon hcolon, isContained_of_isNamePath (isNamePath_of_segment hns),
    isContained_of_isNamePath hpath, hslash]
  rfl

/-- In no pack is there a place in the two namespaces that stand for directories. -/
theorem not_hasPlace_of_isPathIn (hns : ns = "." ∨ ns = "..") (h : IsPathIn ns name) :
    ¬HasPlace name := by
  obtain ⟨path, rfl, -⟩ := h
  rw [hasPlace_iff]
  rintro ⟨q, hq⟩
  obtain rfl | rfl := hns
  · rw [splitName_of_colon (by decide)] at hq
    cases hq
  · rw [splitName_of_colon (by decide)] at hq
    cases hq

/-! ## Writing -/

section

variable (hns : isNameSegment ns.toList = true) (h : IsPathIn ns name)
include hns h

theorem functionPath_of_isPathIn (root : String) :
    ∃ path, functionPath root name = .ok path ∧ (NulFree root → NulFree path) := by
  obtain ⟨path, hsplit, hpath⟩ := splitName_of_isPathIn hns h
  refine ⟨_, except_bind_eq_ok.2 ⟨_, hsplit, rfl⟩, fun hroot => ?_⟩
  have hdir := (hroot.join (by decide : NulFree "data")).join (nulFree_of_isNameSegment hns)
  exact (hdir.join (by decide)).join (hpath.append (by decide))

theorem tagPath_of_isPathIn (root : String) :
    ∃ path, tagPath root name = .ok path ∧ (NulFree root → NulFree path) := by
  obtain ⟨path, hsplit, hpath⟩ := splitName_of_isPathIn hns h
  refine ⟨_, except_bind_eq_ok.2 ⟨_, hsplit, rfl⟩, fun hroot => ?_⟩
  have hdir := (hroot.join (by decide : NulFree "data")).join (nulFree_of_isNameSegment hns)
  exact ((hdir.join (by decide)).join (by decide)).join (hpath.append (by decide))

end

/-- The name of a tag is that of a path. -/
theorem exists_isPathIn_tag (tag : Tag) :
    ∃ ns, isNameSegment ns.toList = true ∧ IsPathIn ns tag.name := by
  cases tag with
  | swapOut => exact ⟨"masm", by decide, "__internal/mems/swap_out", by decide, by decide⟩
  | load => exact ⟨"minecraft", by decide, "load", by decide, by decide⟩

/-- A pack of sequences that have places fails to be written for no reason but one that is about the
    root or comes from the system. -/
theorem raises_writePack (root description : String) {programs : List Program}
    (h : ∀ p ∈ programs, ∃ ns, isNameSegment ns.toList = true ∧
      ∀ s ∈ p.sequences, IsPathIn ns (p.nameOf s)) :
    Raises (·.IsAbout root) (writePack root description programs : Work Summary) := by
  -- Every path begins with the root and goes on with texts that the system can be given.
  have hwrite : ∀ path text, (NulFree root → NulFree path) →
      Raises (·.IsAbout root) (writeBelow path text : Work Unit) :=
    fun path text hpath => (raises_writeBelow path text).mono fun _ he => he.of_above hpath
  have hsequences : ∀ p ∈ programs, ∀ s ∈ p.sequences,
      Raises (·.IsAbout root) (writeSequence root p s : Work Unit) := by
    intro p hp s hs
    obtain ⟨ns, hns, hnames⟩ := h p hp
    obtain ⟨path, hpath, hnul⟩ := functionPath_of_isPathIn hns (hnames s hs) root
    unfold writeSequence
    rw [hpath]
    exact hwrite path _ hnul
  have htags : ∀ tag members, Raises (·.IsAbout root) (writeTag root tag members : Work Unit) := by
    intro tag members
    obtain ⟨ns, hns, hname⟩ := exists_isPathIn_tag tag
    obtain ⟨path, hpath, hnul⟩ := tagPath_of_isPathIn hns hname root
    unfold writeTag
    rw [hpath]
    exact hwrite path _ hnul
  exact .bind (World.raises_makeDirs root) fun _ =>
    .bind (hwrite _ _ fun hroot => hroot.join (by decide)) fun _ =>
      .bind (.forM fun p hp => .forM (hsequences p hp)) fun _ =>
        .bind (.forM fun entry _ => htags entry.1 entry.2) fun _ => .pure _

/-! ## Compiled modules -/

variable {m : Wasm.Module} {p : Program}

/-- **Places of compiled modules.**  Every sequence of a module has a place in a pack, unless the
    namespace is one of the two that stand for directories; then none has.  Every tag has a place.  In
    another namespace the module can be written, with or without the library: the writing fails for no
    reason but one that is about the root or comes from the system. -/
theorem hasPlace_of_compileModule (h : compileModule ns m = .ok p) :
    (∀ s ∈ p.sequences, HasPlace (p.nameOf s) ↔ ns ≠ "." ∧ ns ≠ "..") ∧
      (∀ tag : Tag, HasPlace tag.name) ∧
      (ns ≠ "." ∧ ns ≠ ".." → ∀ root description, ∀ programs : List Program,
        (∀ q ∈ programs, q = p ∨ q = Library.program) →
        Raises (·.IsAbout root) (writePack root description programs : Work Summary)) := by
  obtain ⟨c⟩ := exists_compiled h
  have hiff := isNameSegment_iff c.namespaceOk
  refine ⟨fun s hs => ⟨fun hplace => ?_, fun hns => ?_⟩, fun tag => ?_,
    fun hns root description programs hprograms => ?_⟩
  · constructor <;> rintro rfl
    · exact not_hasPlace_of_isPathIn (.inl rfl) (c.isPathIn hs) hplace
    · exact not_hasPlace_of_isPathIn (.inr rfl) (c.isPathIn hs) hplace
  · obtain ⟨path, hpath, -⟩ := splitName_of_isPathIn (hiff.2 hns) (c.isPathIn hs)
    exact hasPlace_iff.2 ⟨_, hpath⟩
  · obtain ⟨tagNs, htag, hname⟩ := exists_isPathIn_tag tag
    obtain ⟨path, hpath, -⟩ := splitName_of_isPathIn htag hname
    exact hasPlace_iff.2 ⟨_, hpath⟩
  · refine raises_writePack root description fun q hq => ?_
    obtain rfl | rfl := hprograms q hq
    · exact ⟨ns, hiff.2 hns, fun s => c.isPathIn⟩
    · exact ⟨sharedNamespace, by decide, fun s => isPathIn_library⟩

/-- A module in an ordinary namespace: its names have places, and it can be written. -/
theorem hasPlace_idle : ∃ p, compileModule "demo" (idleModule "run") = .ok p ∧
    (∀ s ∈ p.sequences, HasPlace (p.nameOf s)) ∧
    Raises (·.IsAbout "p") (writePack "p" "d" [p] : Work Summary) := by
  refine ⟨_, rfl, ?_⟩
  obtain ⟨hnames, -, hwrite⟩ := hasPlace_of_compileModule
    (rfl : compileModule "demo" (idleModule "run") = .ok _)
  exact ⟨fun s hs => (hnames s hs).2 (by decide), hwrite (by decide) "p" "d" _
    fun q hq => .inl (List.mem_singleton.1 hq)⟩

/-- A module that is compiled but cannot be written: its namespace stands for the directory above. -/
theorem escaping_parent : ∃ p, compileModule ".." {} = .ok p ∧
    (∃ s ∈ p.sequences, functionPath "p" (p.nameOf s) = .error (.escaping "..:__init")) ∧
    ∃ w', (writePack "p" "d" [p] : Work Summary) {} = .error (.escaping "..:__init") w' := by
  refine ⟨_, rfl, by decide, ?_⟩
  -- The writing is only computed once its result is compared with a constant.
  generalize hp : Program.mk _ _ _ = p
  have hrun : (match (writePack "p" "d" [p] : Work Summary) {} with
      | .ok _ _ => none
      | .error e _ => some e) = some (.escaping "..:__init") := by
    rw [← hp]
    decide +kernel
  split at hrun
  · cases hrun
  · rename_i e w' hwrite
    cases hrun
    exact ⟨w', hwrite⟩

end WasmPack.Pack
