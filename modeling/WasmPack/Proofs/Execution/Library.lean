/-
  WasmPack.Proofs.Execution.Library

  The sequences of the library have different names, so each is found under its
  own.
-/
import WasmPack.Library.Basic
import WasmPack.Proofs.Execution.Dispatch
import WasmPack.Proofs.Execution.Loaded

namespace WasmPack

/-! ## Names of routines -/

theorem Library.mem_listing (r : Routine) : r ∈ listing := by
  cases r <;> decide

theorem Routine.name_inj {q r : Routine} : q.name = r.name ↔ q = r := by
  have hall : ∀ q ∈ Library.listing, ∀ r ∈ Library.listing, q.name = r.name → q = r := by
    decide +kernel
  constructor
  · exact hall q (Library.mem_listing q) r (Library.mem_listing r)
  · rintro rfl
    rfl

/-- What the names of the sequences of the library have in common. -/
def sharedPrefix : List Char := "masm:__internal/".toList

theorem toList_routine_name (ns : String) (r : Routine) :
    ((Symbol.routine r).qualifiedName ns).toList = sharedPrefix ++ r.name.toList := by
  have hprefix : sharedNamespace.toList ++ ":__internal/".toList = sharedPrefix := by decide
  rw [Symbol.qualifiedName, internal, String.toList_append, String.toList_append, hprefix]

/-- The part of a tree of the library in the names of its nodes. -/
def treePart : TreeBase → List Char
  | .byteGet => "mem/get/".toList
  | _ => "mem/set/".toList

theorem toList_tree_name {base : TreeBase} (hb : base = .byteGet ∨ base = .byteSet) (ns : String)
    (lo hi : Nat) : ∃ rest, ((Symbol.tree base lo hi).qualifiedName ns).toList =
      sharedPrefix ++ (treePart base ++ rest) := by
  have hbase : (TreeBase.qualifiedName ns base).toList ++ "/".toList =
      sharedPrefix ++ treePart base := by
    obtain rfl | rfl := hb
    · show (internal sharedNamespace "mem/get").toList ++ _ = _
      decide
    · show (internal sharedNamespace "mem/set").toList ++ _ = _
      decide
  rw [qualifiedName_tree, String.toList_append, String.toList_append, ← List.append_assoc, hbase,
    List.append_assoc]
  exact ⟨_, rfl⟩

/-- No routine has the name of a node. -/
theorem routine_name_ne_tree_name {base : TreeBase} (hb : base = .byteGet ∨ base = .byteSet)
    (ns : String) (r : Routine) (lo hi : Nat) :
    (Symbol.routine r).qualifiedName ns ≠ (Symbol.tree base lo hi).qualifiedName ns := by
  intro h
  obtain ⟨rest, hrest⟩ := toList_tree_name hb ns lo hi
  rw [← h, toList_routine_name, List.append_cancel_left_eq] at hrest
  have hlen : (treePart base).length = 8 := by
    obtain rfl | rfl := hb <;> decide
  have htake : r.name.toList.take 8 = treePart base := by
    rw [hrest, ← hlen, List.take_left]
  have hne : r.name.toList.take 8 ≠ "mem/get/".toList ∧
      r.name.toList.take 8 ≠ "mem/set/".toList := by
    cases r <;> decide
  obtain rfl | rfl := hb
  · exact hne.1 htake
  · exact hne.2 htake

/-- No node of one tree has the name of a node of the other. -/
theorem byteGet_name_ne_byteSet_name (ns : String) (lo hi lo' hi' : Nat) :
    (Symbol.tree .byteGet lo hi).qualifiedName ns ≠
      (Symbol.tree .byteSet lo' hi').qualifiedName ns := by
  intro h
  obtain ⟨rest, hrest⟩ := toList_tree_name (.inl rfl) ns lo hi
  obtain ⟨rest', hrest'⟩ := toList_tree_name (.inr rfl) ns lo' hi'
  rw [h, hrest', List.append_cancel_left_eq] at hrest
  have hlen : (treePart .byteSet).length = (treePart .byteGet).length := by decide
  have hne : treePart .byteSet ≠ treePart .byteGet := by decide
  exact hne (List.append_inj_left hrest hlen)

/-! ## Sequences by name -/

namespace Library

/-- The sequences of the library: its routines, and the nodes of its two trees. -/
theorem mem_program {s : Sequence} (h : s ∈ program.sequences) :
    (∃ r, s = ⟨.routine r, routineCommands r⟩) ∨
      (∃ part : Span, 0 < part.size ∧ s = ⟨byteGetTree.symbol part,
        (byteGetTree.node (fun i => .load .a (windowByte i)) part).2⟩) ∨
      ∃ part : Span, 0 < part.size ∧ s = ⟨byteSetTree.symbol part,
        (byteSetTree.node (fun i => .saveAs (windowByte i) .byte .a) part).2⟩ := by
  have hsize : 0 < pageOffsets.size := by decide
  obtain h | h := List.mem_append.1 h
  · obtain ⟨r, -, rfl⟩ := List.mem_map.1 h
    exact .inl ⟨r, rfl⟩
  · obtain h | h := List.mem_append.1 h
    · exact .inr (.inl (DispatchTree.eq_of_mem_sequences hsize h))
    · exact .inr (.inr (DispatchTree.eq_of_mem_sequences hsize h))

/-- Sequences of the library with the same name have the same commands. -/
theorem commands_eq_of_name_eq {s t : Sequence} (hs : s ∈ program.sequences)
    (ht : t ∈ program.sequences) (h : program.nameOf s = program.nameOf t) :
    s.commands = t.commands := by
  obtain ⟨q, rfl⟩ | ⟨part, hpart, rfl⟩ | ⟨part, hpart, rfl⟩ := mem_program hs <;>
    obtain ⟨r, rfl⟩ | ⟨part', hpart', rfl⟩ | ⟨part', hpart', rfl⟩ := mem_program ht
  · have hname := congrArg String.toList h
    rw [Program.nameOf, Program.nameOf, toList_routine_name, toList_routine_name,
      List.append_cancel_left_eq, String.toList_inj, Routine.name_inj] at hname
    rw [hname]
  · exact absurd h (routine_name_ne_tree_name (.inl rfl) _ _ _ _)
  · exact absurd h (routine_name_ne_tree_name (.inr rfl) _ _ _ _)
  · exact absurd h.symm (routine_name_ne_tree_name (.inl rfl) _ _ _ _)
  · obtain ⟨hlo, hlast⟩ := tree_name_inj.1 h
    rw [DispatchTree.span_eq_of_ends hpart hpart' hlo hlast]
  · exact absurd h (byteGet_name_ne_byteSet_name _ _ _ _ _)
  · exact absurd h.symm (routine_name_ne_tree_name (.inr rfl) _ _ _ _)
  · exact absurd h.symm (byteGet_name_ne_byteSet_name _ _ _ _ _)
  · obtain ⟨hlo, hlast⟩ := tree_name_inj.1 h
    rw [DispatchTree.span_eq_of_ends hpart hpart' hlo hlast]

/-- The names of the sequences of the library lie in the shared namespace. -/
theorem inNamespace_nameOf {s : Sequence} (hs : s ∈ program.sequences) :
    InNamespace program.ns (program.nameOf s) := by
  obtain ⟨r, rfl⟩ | ⟨part, -, rfl⟩ | ⟨part, -, rfl⟩ := mem_program hs
  · exact Symbol.IsShared.inNamespace (s := .routine r) trivial _
  · exact Symbol.IsShared.inNamespace (s := .tree .byteGet part.lo part.last) trivial _
  · exact Symbol.IsShared.inNamespace (s := .tree .byteSet part.lo part.last) trivial _

end Library

/-! ## The library in code -/

namespace Machine

/-- The sequences of the library are found. -/
def Code.HasLibrary (code : Code) : Prop := code.Finds sharedNamespace Library.program.sequences

variable {code : Code}

/-- A routine is found whichever module calls it. -/
theorem Code.HasLibrary.routine (h : code.HasLibrary) (r : Routine) (ns : String) :
    code.function ((Symbol.routine r).qualifiedName ns) =
      .ok ⟨sharedNamespace, Library.routineCommands r⟩ := by
  exact h ⟨.routine r, Library.routineCommands r⟩
    (List.mem_append_left _ (List.mem_map.2 ⟨r, Library.mem_listing r, rfl⟩))

theorem Code.HasLibrary.byteGetTree (h : code.HasLibrary) : code.Finds sharedNamespace
    (Library.byteGetTree.sequences (fun i => .load .a (Library.windowByte i)) Library.pageOffsets) :=
  fun s hs => h s (List.mem_append_right _ (List.mem_append_left _ hs))

theorem Code.HasLibrary.byteSetTree (h : code.HasLibrary) : code.Finds sharedNamespace
    (Library.byteSetTree.sequences (fun i => .saveAs (Library.windowByte i) .byte .a)
      Library.pageOffsets) :=
  fun s hs => h s (List.mem_append_right _ (List.mem_append_right _ hs))

end Machine

end WasmPack
