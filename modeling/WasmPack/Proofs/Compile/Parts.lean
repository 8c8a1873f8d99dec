/-
  WasmPack.Proofs.Compile.Parts

  Modules that are loaded with the library, each in a namespace of its own: which
  functions are found under which names, and what runs when the parts are
  prepared.
-/
import WasmPack.Proofs.Compile.Names
import WasmPack.Proofs.Execution.Library
import WasmPack.Proofs.Execution.Reached

namespace WasmPack

open Machine Compile

variable {parts : List Part} {part : Part} {ps : List Program} {p : Program} {ns : String}
  {m : Wasm.Module} {s t : Sequence}

/-! ## Names of parts -/

/-- Modules beside the library: each has a namespace of its own, exports no function under a name
    that looks internal, and has no more memories than indices can count. -/
structure Orderly (parts : List Part) : Prop where
  library : .library ∈ parts
  apart : ∀ ns m m', .module ns m ∈ parts → .module ns m' ∈ parts → m = m'
  free : ∀ ns m, .module ns m ∈ parts → NoInternalExports m
  few : ∀ ns m spaces, .module ns m ∈ parts → IndexSpaces.ofModule m = .ok spaces →
    spaces.memories.size ≤ 2 ^ 31

namespace Part

theorem colonless (h : part.program = .ok p) : ':' ∉ p.ns.toList := by
  cases part with
  | library =>
    cases h
    show ':' ∉ sharedNamespace.toList
    decide
  | module ns m =>
    obtain ⟨c⟩ := exists_compiled h
    rw [c.ns_eq]
    exact (checkNamespace_eq_ok c.namespaceOk).2

theorem inNamespace (h : part.program = .ok p) (hs : s ∈ p.sequences) :
    InNamespace p.ns (p.nameOf s) := by
  cases part with
  | library =>
    cases h
    exact Library.inNamespace_nameOf hs
  | module ns m =>
    obtain ⟨c⟩ := exists_compiled h
    exact (c.isOwn hs).inNamespace p.ns

/-- Each module has a namespace of its own. -/
def Apart (parts : List Part) : Prop :=
  ∀ ns m m', .module ns m ∈ parts → .module ns m' ∈ parts → m = m'

/-- Two modules with different namespaces. -/
theorem Apart.pair {ns ns' : String} {m m' : Wasm.Module} (h : ns ≠ ns') :
    Apart [.module ns m, .module ns' m'] := by
  intro ns₁ m₁ m₂ hm₁ hm₂
  simp only [List.mem_cons, Part.module.injEq, List.not_mem_nil, or_false] at hm₁ hm₂
  obtain ⟨rfl, rfl⟩ | ⟨rfl, rfl⟩ := hm₁
  · obtain ⟨-, rfl⟩ | ⟨hne, -⟩ := hm₂
    · rfl
    · exact absurd hne h
  · obtain ⟨hne, -⟩ | ⟨-, rfl⟩ := hm₂
    · exact absurd hne.symm h
    · rfl

/-- The namespace of the library is reserved, so no module has it. -/
theorem eq_library_of_ns (h : part.program = .ok p) (hns : p.ns = sharedNamespace) :
    part = .library := by
  cases part with
  | library => rfl
  | module ns m =>
    obtain ⟨c⟩ := exists_compiled h
    rw [c.ns_eq] at hns
    exact absurd hns (checkNamespace_eq_ok c.namespaceOk).1

/-- The library is found under its names, whatever modules are loaded beside it. -/
theorem Give.hasLibrary (hps : Part.Give parts ps) (hlib : .library ∈ parts) :
    (ps.foldl Code.addProgram {}).HasLibrary := by
  intro s hs
  obtain ⟨q, hq, hprogram⟩ := hps.exists_program hlib
  cases hprogram
  refine function_foldl_addProgram hq hs rfl fun p hp t ht hname => ?_
  obtain ⟨part, -, hpart⟩ := hps.exists_part hp
  have hns : p.ns = sharedNamespace := by
    apply (Part.inNamespace hpart ht).unique _ (Part.colonless hpart) (by decide)
    rw [hname]
    exact Library.inNamespace_nameOf hs
  cases eq_library_of_ns hpart hns
  cases hpart
  rw [functionOf, Library.commands_eq_of_name_eq ht hs hname]
  rfl

/-- Parts with the same namespace have the same program. -/
theorem Apart.modular (h : Apart parts) (hps : Part.Give parts ps) : Modular ps where
  named q hq s hs := by
    obtain ⟨part, -, hprogram⟩ := hps.exists_part hq
    exact Part.inNamespace hprogram hs
  colonless q hq := by
    obtain ⟨part, -, hprogram⟩ := hps.exists_part hq
    exact Part.colonless hprogram
  apart q hq q' hq' hns := by
    obtain ⟨part, hpart, hprogram⟩ := hps.exists_part hq
    obtain ⟨part', hpart', hprogram'⟩ := hps.exists_part hq'
    by_cases hshared : q.ns = sharedNamespace
    · cases eq_library_of_ns hprogram hshared
      cases eq_library_of_ns hprogram' (hns.symm.trans hshared)
      exact Except.ok.inj (hprogram.symm.trans hprogram')
    · cases part with
      | library =>
        cases hprogram
        exact absurd rfl hshared
      | module ns m =>
        cases part' with
        | library =>
          cases hprogram'
          exact absurd hns hshared
        | module ns' m' =>
          obtain ⟨c⟩ := exists_compiled hprogram
          obtain ⟨c'⟩ := exists_compiled hprogram'
          rw [c.ns_eq, c'.ns_eq] at hns
          subst hns
          cases h ns m m' hpart hpart'
          exact Except.ok.inj (hprogram.symm.trans hprogram')

end Part

namespace Orderly

variable (h : Orderly parts) (hps : Part.Give parts ps)

include h hps

theorem modular : Modular ps := Part.Apart.modular h.apart hps

theorem hasLibrary : (ps.foldl Code.addProgram {}).HasLibrary := hps.hasLibrary h.library

/-- A sequence with an internal name is found when no other has its symbol. -/
theorem function_eq (hm : .module ns m ∈ parts) (c : Compiled ns m p) (hs : s ∈ p.sequences)
    (hi : s.symbol.IsInternal)
    (hunique : ∀ t ∈ p.sequences, t.symbol = s.symbol → t.commands = s.commands) :
    (ps.foldl Code.addProgram {}).function (s.symbol.qualifiedName ns) = .ok ⟨ns, s.commands⟩ := by
  obtain ⟨q, hq, hprogram⟩ := hps.exists_program hm
  obtain rfl : q = p := Except.ok.inj (hprogram.symm.trans c.compile_eq)
  have hfind : (ps.foldl Code.addProgram {}).function (q.nameOf s) = .ok (functionOf q s) :=
    (h.modular hps).function_eq hq hs fun t ht hname => hunique t ht <|
      c.symbol_eq_of_name_eq (h.free ns m hm) ht hi (by rw [hname, Program.nameOf, c.ns_eq])
  rw [Program.nameOf, functionOf, c.ns_eq] at hfind
  exact hfind

end Orderly

/-! ## What runs when parts are prepared -/

/-- The symbol does not stand for something that runs when a pack is loaded. -/
def Symbol.IsQuiet (s : Symbol) : Prop := s ≠ .init ∧ s ≠ .routine .load

theorem addSequence_of_isQuiet {name : String} {q : Symbol} (h : q.IsQuiet) (tags : TagTable) :
    tags.addSequence name q = tags := by
  cases q with
  | init => exact absurd rfl h.1
  | routine r =>
    cases r with
    | load => exact absurd rfl h.2
    | _ => rfl
  | _ => rfl

theorem foldl_addSequence_of_isQuiet {ss : List Sequence} (h : ∀ s ∈ ss, s.symbol.IsQuiet)
    (tags : TagTable) :
    ss.foldl (fun tags s => tags.addSequence (p.nameOf s) s.symbol) tags = tags := by
  induction ss with
  | nil => rfl
  | cons s ss ih =>
    rw [List.foldl_cons, addSequence_of_isQuiet (h s List.mem_cons_self)]
    exact ih fun t ht => h t (List.mem_cons_of_mem s ht)

/-- The tags of a program that join the one that stores the window leave the other one alone. -/
theorem load_foldl_add {entries : List (Tag × Symbol)} (h : ∀ e ∈ entries, e.1 = .swapOut)
    (tags : TagTable) :
    (entries.foldl (fun tags (tag, s) => tags.add (s.qualifiedName ns) tag) tags).load =
      tags.load := by
  induction entries generalizing tags with
  | nil => rfl
  | cons e entries ih =>
    rw [List.foldl_cons, ih fun e' he' => h e' (List.mem_cons_of_mem e he')]
    obtain ⟨tag, s⟩ := e
    cases h _ List.mem_cons_self
    rfl

namespace Part

/-- The name of what prepares the library. -/
def loadName : String := (Symbol.routine .load).qualifiedName sharedNamespace

/-- The name of what prepares a module. -/
def initName? : Part → Option String
  | .library => none
  | .module ns _ => some (Symbol.init.qualifiedName ns)

/-- Whether the part is the library. -/
def isLibrary : Part → Bool
  | .library => true
  | .module _ _ => false

theorem load_addProgram_library (tags : TagTable) :
    (tags.addProgram Library.program).load = loadName :: tags.load := by
  have hrest : ∀ s ∈ ((Library.listing.tail.map fun r =>
      (⟨.routine r, Library.routineCommands r⟩ : Sequence)) ++ Library.treeSequences),
      s.symbol.IsQuiet := by
    intro s hs
    obtain hs | hs := List.mem_append.1 hs
    · obtain ⟨r, hr, rfl⟩ := List.mem_map.1 hs
      refine ⟨fun heq => (nomatch heq), fun heq => ?_⟩
      cases heq
      revert hr
      decide
    · have htree : ∃ base lo hi, s.symbol = .tree base lo hi := by
        obtain hs | hs := List.mem_append.1 hs
        · exact ⟨_, tree_symbol (by decide) hs⟩
        · exact ⟨_, tree_symbol (by decide) hs⟩
      obtain ⟨base, lo, hi, heq⟩ := htree
      rw [heq]
      exact ⟨fun heq => (nomatch heq), fun heq => nomatch heq⟩
  have hsplit : Library.program.sequences =
      ⟨.routine .load, Library.routineCommands .load⟩ :: ((Library.listing.tail.map fun r =>
        (⟨.routine r, Library.routineCommands r⟩ : Sequence)) ++ Library.treeSequences) := rfl
  have hload : tags.addSequence (Library.program.nameOf ⟨.routine .load,
      Library.routineCommands .load⟩) (.routine .load) =
        { tags with load := loadName :: tags.load } := rfl
  have htags : Library.program.tags = [] := rfl
  rw [TagTable.addProgram, hsplit, List.foldl_cons, hload, foldl_addSequence_of_isQuiet hrest,
    htags, List.foldl_nil]

theorem load_addProgram_module (c : Compiled ns m p) (tags : TagTable) :
    (tags.addProgram p).load = tags.load ++ [Symbol.init.qualifiedName ns] := by
  have hquiet : ∀ s ∈ c.functions ++ allMemorySequences ns c.spaces ++
      swapOutSequences ns c.spaces ++ allGlobalSequences c.spaces ++ exportSequences c.spaces m ++
      fragmentSequences c.pool, s.symbol.IsQuiet := by
    intro s hs
    refine ⟨c.symbol_ne_init hs, fun heq => ?_⟩
    have hmem : s ∈ p.sequences := by
      rw [c.program]
      exact List.mem_append_left _ hs
    have hown := c.isOwn hmem
    rw [heq] at hown
    exact hown
  have htags : ∀ e ∈ p.tags, e.1 = .swapOut := by
    rw [c.program]
    intro e he
    obtain ⟨s, -, rfl⟩ := List.mem_map.1 he
    rfl
  have hsequences : p.sequences.foldl (fun tags s => tags.addSequence (p.nameOf s) s.symbol) tags =
      tags.add (Symbol.init.qualifiedName ns) .load := by
    have hsplit := congrArg Program.sequences c.program
    rw [hsplit, List.foldl_append, foldl_addSequence_of_isQuiet hquiet]
    exact congrArg (fun ns => tags.add (Symbol.init.qualifiedName ns) .load) c.ns_eq
  rw [TagTable.addProgram, hsequences, load_foldl_add htags]
  rfl

/-- The library is prepared first, once for each time it is loaded, and then the modules in their
    order. -/
theorem Give.load_members (hps : Part.Give parts ps) (code : Code) :
    (ps.foldl Code.addProgram code).tags.load =
      List.replicate (parts.countP isLibrary) loadName ++ code.tags.load ++
        parts.filterMap initName? := by
  induction hps generalizing code with
  | nil => exact (List.append_nil _).symm
  | @cons part p parts ps hp _ ih =>
    rw [List.foldl_cons, ih, tags_addProgram]
    cases part with
    | library =>
      cases hp
      rw [load_addProgram_library, List.countP_cons_of_pos rfl, List.replicate_succ',
        List.filterMap_cons_none rfl]
      simp
    | module ns m =>
      obtain ⟨c⟩ := exists_compiled hp
      have hcons : (module ns m :: parts).filterMap initName? =
          Symbol.init.qualifiedName ns :: parts.filterMap initName? := rfl
      rw [load_addProgram_module c, List.countP_cons_of_neg (by simp [isLibrary]), hcons]
      simp

end Part

namespace Orderly

variable (h : Orderly parts) (hps : Part.Give parts ps)

include h hps

/-- What prepares a module is found. -/
theorem init_function (hm : .module ns m ∈ parts) (c : Compiled ns m p) (hfree : NoInitExport m) :
    (ps.foldl Code.addProgram {}).function (Symbol.init.qualifiedName ns) = .ok ⟨ns, c.init⟩ := by
  obtain ⟨q, hq, hprogram⟩ := hps.exists_program hm
  obtain rfl : q = p := Except.ok.inj (hprogram.symm.trans c.compile_eq)
  have hmem : ⟨.init, c.init⟩ ∈ q.sequences := by
    have hsplit := congrArg Program.sequences c.program
    rw [hsplit]
    exact List.mem_append_right _ List.mem_cons_self
  have hname : q.nameOf ⟨.init, c.init⟩ = Symbol.init.qualifiedName ns := by
    rw [Program.nameOf, c.ns_eq]
  have hfind : (ps.foldl Code.addProgram {}).function (q.nameOf ⟨.init, c.init⟩) =
      .ok (functionOf q ⟨.init, c.init⟩) := (h.modular hps).function_eq hq hmem fun t ht heq => by
    rw [hname] at heq
    rw [c.eq_of_init_symbol ht (c.symbol_eq_init hfree ht heq)]
  rw [hname, functionOf, c.ns_eq] at hfind
  exact hfind

end Orderly

end WasmPack
