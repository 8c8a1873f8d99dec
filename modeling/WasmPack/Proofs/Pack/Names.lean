/-
  WasmPack.Proofs.Pack.Names

  What stands behind the colon in the name of a sequence is a path that could be
  the name of an export: what compilation puts around the names of exports, and
  what it makes of numbers, passes the test that it asks of those names.
-/
import WasmPack.Compile.Name
import WasmPack.Proofs.Compile.Contents
import WasmPack.Proofs.Compile.Distinct
import WasmPack.Proofs.Execution.Library
import WasmPack.Proofs.Text.Cutting

namespace WasmPack

namespace Compile

open Wasm

variable {ns name path rest text : String}

/-! ## Paths of names -/

/-- The text could be the name of an export. -/
def IsNamePath (path : String) : Prop := (Text.cut '/' path.toList).all isNameSegment = true

instance (path : String) : Decidable (IsNamePath path) := by
  unfold IsNamePath
  infer_instance

theorem checkName_eq_ok {kind : NameKind} : checkName kind name = .ok () ↔ IsNamePath name := by
  unfold checkName
  split
  · rename_i h
    exact ⟨fun _ => h, fun _ => rfl⟩
  · rename_i h
    exact ⟨(fun hok => nomatch hok), fun hpath => absurd hpath h⟩

theorem isNamePath_of_segment (h : isNameSegment text.toList = true) : IsNamePath text := by
  have hslash : '/' ∉ text.toList := by
    intro hmem
    simp only [isNameSegment, Bool.and_eq_true] at h
    exact absurd (List.all_eq_true.1 h.2 '/' hmem) (by decide)
  rw [IsNamePath, Text.cut_of_not_mem hslash, List.all_cons, h]
  rfl

/-- One path below another is a path. -/
theorem IsNamePath.slash (hpath : IsNamePath path) (hrest : IsNamePath rest) :
    IsNamePath (path ++ "/" ++ rest) := by
  have htext : (path ++ "/" ++ rest).toList = path.toList ++ '/' :: rest.toList := by
    rw [String.toList_append, String.toList_append, List.append_assoc]
    rfl
  rw [IsNamePath, htext, Text.cut_append, List.all_append, hpath, hrest]
  rfl

/-- A text of name characters of which one is not a dot is a segment. -/
theorem isNameSegment_of_all {cs : List Char} (hall : cs.all isNameChar = true)
    (hc : ∃ c ∈ cs, c ≠ '.') : isNameSegment cs = true := by
  obtain ⟨c, hmem, hne⟩ := hc
  have hdots : ∀ n, cs ≠ List.replicate n '.' := by
    rintro n rfl
    exact hne (List.eq_of_mem_replicate hmem)
  simp only [isNameSegment, Bool.and_eq_true, decide_eq_true_eq]
  exact ⟨⟨⟨hdots 0, hdots 1⟩, hdots 2⟩, hall⟩

theorem isNameChar_of_isDigit {c : Char} (h : c.isDigit = true) : isNameChar c = true := by
  have hrange : ('0' ≤ c && c ≤ '9') = true := h
  rw [isNameChar, hrange]
  simp

theorem exists_mem_toString (n : Nat) : ∃ c ∈ (toString n : String).toList, c ≠ '.' := by
  have hne : (toString n : String).toList ≠ [] := by
    show n.repr.toList ≠ []
    rw [Nat.toList_repr]
    exact Nat.toDigits_ne_nil
  obtain ⟨c, hc⟩ := List.exists_mem_of_ne_nil _ hne
  refine ⟨c, hc, ?_⟩
  rintro rfl
  exact absurd (isDigit_of_mem_toString hc) (by decide)

theorem all_isNameChar_nat (n : Nat) : (toString n : String).toList.all isNameChar = true :=
  List.all_eq_true.2 fun _ hc => isNameChar_of_isDigit (isDigit_of_mem_toString hc)

theorem isNamePath_nat (n : Nat) : IsNamePath (toString n) :=
  isNamePath_of_segment (isNameSegment_of_all (all_isNameChar_nat n) (exists_mem_toString n))

theorem isNamePath_range (lo hi : Nat) : IsNamePath (toString lo ++ "-" ++ toString hi) := by
  refine isNamePath_of_segment (isNameSegment_of_all ?_ ⟨'-', ?_, by decide⟩)
  · rw [String.toList_append, String.toList_append, List.all_append, List.all_append,
      all_isNameChar_nat, all_isNameChar_nat]
    decide
  · simp

/-! ## Names of sequences -/

/-- The name is that of a path in a namespace. -/
def IsPathIn (ns name : String) : Prop := ∃ path, name = ns ++ ":" ++ path ∧ IsNamePath path

namespace IsPathIn

theorem slash (h : IsPathIn ns name) (hrest : IsNamePath rest) :
    IsPathIn ns (name ++ "/" ++ rest) := by
  obtain ⟨path, rfl, hpath⟩ := h
  exact ⟨path ++ "/" ++ rest, by simp only [String.append_assoc], hpath.slash hrest⟩

theorem internal (ns : String) (h : IsNamePath path) : IsPathIn ns (internal ns path) := by
  have hprefix : ":__internal/" = ":" ++ ("__internal" ++ "/") := by decide
  refine ⟨"__internal" ++ "/" ++ path, ?_, IsNamePath.slash (by decide) h⟩
  simp only [WasmPack.internal, hprefix, String.append_assoc]

theorem publicMemory (ns : String) (h : IsNamePath name) (op : MemoryOp) :
    IsPathIn ns (publicMemory ns name op) := by
  have hprefix : ":__mems/" = ":" ++ ("__mems" ++ "/") := by decide
  have hop : IsNamePath op.name := by cases op <;> decide
  refine ⟨"__mems" ++ "/" ++ name ++ "/" ++ op.name, ?_,
    (IsNamePath.slash (by decide) h).slash hop⟩
  simp only [WasmPack.publicMemory, hprefix, String.append_assoc]

theorem publicGlobal (ns : String) (h : IsNamePath name) (op : GlobalOp) :
    IsPathIn ns (publicGlobal ns name op) := by
  have hprefix : ":__globals/" = ":" ++ ("__globals" ++ "/") := by decide
  have hop : IsNamePath op.name := by cases op <;> decide
  refine ⟨"__globals" ++ "/" ++ name ++ "/" ++ op.name, ?_,
    (IsNamePath.slash (by decide) h).slash hop⟩
  simp only [WasmPack.publicGlobal, hprefix, String.append_assoc]

/-- The operations on a numbered part of a module. -/
theorem numbered (ns : String) {kind : String} (hkind : IsNamePath kind) (i : UInt32)
    (hrest : IsNamePath rest) :
    IsPathIn ns (WasmPack.internal ns (kind ++ "/" ++ toString i.toNat ++ "/" ++ rest)) :=
  internal ns ((hkind.slash (isNamePath_nat _)).slash hrest)

/-- The name of a node of a tree lies below that of the tree. -/
theorem tree {base : TreeBase} (h : IsPathIn ns (base.qualifiedName name)) (lo hi : Nat) :
    IsPathIn ns ((Symbol.tree base lo hi).qualifiedName name) := by
  rw [qualifiedName_tree, ← String.append_assoc]
  exact h.slash (isNamePath_range lo hi)

theorem of_isInternal (ns : String) {s : Symbol} (hs : s.IsInternal) :
    IsPathIn ns (s.qualifiedName ns) := by
  -- Names are made of pieces that have their slashes with them; these are taken off first.
  have hfuncs : "funcs/" = "funcs" ++ "/" := by decide
  have hpool : "func_pool/" = "func_pool" ++ "/" := by decide
  have hmems : "mems/" = "mems" ++ "/" := by decide
  have hglobals : "globals/" = "globals" ++ "/" := by decide
  have hin : "/swap_in" = "/" ++ "swap_in" := by decide
  have hout : "/swap_out" = "/" ++ "swap_out" := by decide
  cases s with
  | func i =>
    rw [Symbol.qualifiedName, hfuncs]
    exact internal ns (IsNamePath.slash (by decide) (isNamePath_nat _))
  | fragment i =>
    rw [Symbol.qualifiedName, hpool]
    exact internal ns (IsNamePath.slash (by decide) (isNamePath_nat _))
  | memory i op =>
    rw [Symbol.qualifiedName, hmems]
    exact numbered ns (by decide) i (by cases op <;> decide)
  | swapOutAll =>
    rw [Symbol.qualifiedName]
    exact internal ns (by decide)
  | global i op =>
    rw [Symbol.qualifiedName, hglobals]
    exact numbered ns (by decide) i (by cases op <;> decide)
  | tree base lo hi =>
    cases base with
    | swapIn i =>
      refine tree ?_ lo hi
      rw [TreeBase.qualifiedName, hmems, hin, ← String.append_assoc]
      exact numbered ns (by decide) i (by decide)
    | swapOut i =>
      refine tree ?_ lo hi
      rw [TreeBase.qualifiedName, hmems, hout, ← String.append_assoc]
      exact numbered ns (by decide) i (by decide)
    | byteGet => exact absurd rfl hs
    | byteSet => exact absurd rfl hs
  | _ => exact absurd rfl hs

end IsPathIn

/-- The sequences of exports belong to exports of the module. -/
theorem exists_export_of_mem {spaces : IndexSpaces} {m : Module} {t : Sequence}
    (h : t ∈ exportSequences spaces m) : ∃ e ∈ m.exports, t.symbol = .exportFunc e.name ∨
      (∃ op, t.symbol = .exportMemory e.name op) ∨ ∃ op, t.symbol = .exportGlobal e.name op := by
  obtain h | h := List.mem_append.1 h
  · obtain h | h := List.mem_append.1 h
    · obtain ⟨e, he, h⟩ := List.mem_flatMap.1 h
      rw [List.mem_singleton.1 h]
      exact ⟨e, (List.mem_filter.1 he).1, .inl rfl⟩
    · obtain ⟨e, he, h⟩ := List.mem_flatMap.1 h
      exact ⟨e, (List.mem_filter.1 he).1, .inr (.inl (symbol_exportMemory h))⟩
  · obtain ⟨e, he, h⟩ := List.mem_flatMap.1 h
    exact ⟨e, (List.mem_filter.1 he).1, .inr (.inr (symbol_exportGlobal h))⟩

/-- Every sequence of a module has the name of a path in the module's namespace. -/
theorem Compiled.isPathIn {m : Module} {p : Program} (c : Compiled ns m p) {s : Sequence}
    (hs : s ∈ p.sequences) : IsPathIn ns (p.nameOf s) := by
  rw [Program.nameOf, c.ns_eq]
  -- A sequence is internal, prepares the module, or belongs to an export; only the names of exports
  -- come from the module, and they have been tested.
  by_cases hi : s.symbol.IsInternal
  · exact .of_isInternal ns hi
  by_cases hinit : s.symbol = .init
  · rw [hinit]
    exact ⟨"__init", by simp [Symbol.qualifiedName, String.append_assoc], by decide⟩
  obtain ⟨e, he, hsymbol⟩ := exists_export_of_mem (c.mem_exportSequences hs hi hinit)
  have hname : IsNamePath e.name :=
    checkName_eq_ok.1 (checkExport_eq_ok.1 ((ofModule_eq_ok.1 c.spacesOk).1.exports e he)).1
  obtain h | ⟨op, h⟩ | ⟨op, h⟩ := hsymbol
  · rw [h]
    exact ⟨e.name, rfl, hname⟩
  · rw [h]
    exact .publicMemory ns hname op
  · rw [h]
    exact .publicGlobal ns hname op

/-- So does every sequence of the library, in the namespace that all modules share. -/
theorem isPathIn_library {s : Sequence} (hs : s ∈ Library.program.sequences) :
    IsPathIn sharedNamespace (Library.program.nameOf s) := by
  obtain h | h := List.mem_append.1 hs
  · obtain ⟨r, -, rfl⟩ := List.mem_map.1 h
    exact .internal sharedNamespace (by cases r <;> decide : IsNamePath r.name)
  · obtain h | h := List.mem_append.1 h
    · obtain ⟨lo, hi, hsymbol⟩ := tree_symbol (by decide) h
      rw [Program.nameOf, hsymbol]
      exact .tree (.internal sharedNamespace (by decide : IsNamePath "mem/get")) lo hi
    · obtain ⟨lo, hi, hsymbol⟩ := tree_symbol (by decide) h
      rw [Program.nameOf, hsymbol]
      exact .tree (.internal sharedNamespace (by decide : IsNamePath "mem/set")) lo hi

end Compile

end WasmPack
