/-
  WasmPack.Proofs.Forest.Module

  The fragments of a compiled module.  They grow from the bodies of its functions,
  the first values of its globals and the offsets of its data segments; memories,
  globals and exports call none of them.
-/
import WasmPack.Proofs.Closed.Module
import WasmPack.Proofs.Forest.Trees

namespace WasmPack.Compile

open Wasm

variable {ns : String} {m : Module} {p : Program} {s : Sequence} {f : Symbol} {cs : List Command}

/-! ## Sequences without calls -/

theorem fragment?_memory (h : s ∈ allMemorySequences ns (IndexSpaces.declared m)) :
    s.symbol.fragment? = none := by
  obtain ⟨⟨entry, i⟩, -, h⟩ := List.mem_flatMap.1 h
  have hown := oneEach_memory.isOfMemory s h
  cases hsymbol : s.symbol with
  | fragment j =>
    rw [hsymbol] at hown
    exact hown.elim
  | _ => rfl

theorem fragment?_global (h : s ∈ allGlobalSequences (IndexSpaces.declared m)) :
    s.symbol.fragment? = none := by
  obtain ⟨⟨entry, i⟩, -, h⟩ := List.mem_flatMap.1 h
  obtain ⟨op, hsymbol⟩ := (nodup_global _ entry).2 s h
  rw [hsymbol]
  rfl

/-- Where there are no fragments, none is called. -/
theorem fragment?_of_callable (h : Callable ns m 0 f) : f.fragment? = none := by
  cases h with
  | func hi => rfl
  | fragment hi => exact absurd hi (Nat.not_lt_zero _)
  | memory hs => exact fragment?_memory hs
  | global hs => exact fragment?_global hs
  | routine r => rfl
  | imported h => cases h <;> rfl

theorem fragmentCalls_of_allKnown (h : AllKnown ns m 0 cs) : fragmentCalls cs = [] :=
  fragmentCalls_eq_nil.2 fun c hc => List.filterMap_eq_nil_iff.2 fun _ hf =>
    fragment?_of_callable ((h c hc).callees _ hf)

namespace Compiled

variable (c : Compiled ns m p)

/-- The sequences between functions and fragments: those of the memories, the globals and the
    exports. -/
def inner : List Sequence :=
  allMemorySequences ns c.spaces ++ swapOutSequences ns c.spaces ++ allGlobalSequences c.spaces ++
    exportSequences c.spaces m

theorem sequences_eq : p.sequences =
    c.functions ++ c.inner ++ fragmentSequences c.pool ++ [⟨.init, c.init⟩] := by
  have hsequences := congrArg Program.sequences c.program
  simp only at hsequences
  rw [hsequences]
  simp only [inner, List.append_assoc]

include c

theorem fragment?_function (hs : s ∈ c.functions) : s.symbol.fragment? = none := by
  obtain ⟨⟨i, hi⟩, -⟩ := c.lowered_ordinary.1 s hs
  rw [hi]
  rfl

theorem inner_idle (hs : s ∈ c.inner) :
    s.symbol.fragment? = none ∧ fragmentCalls s.commands = [] := by
  have hns := plainText_of_checkNamespace c.namespaceOk
  simp only [inner, c.spaces_eq, List.mem_append] at hs
  obtain ((hs | hs) | hs) | hs := hs
  · exact ⟨fragment?_memory hs, fragmentCalls_of_allKnown (allKnown_memories hns hs)⟩
  · rw [mem_swapOutSequences hs]
    exact ⟨rfl, fragmentCalls_of_allKnown (allKnown_swapOutAll hns)⟩
  · exact ⟨fragment?_global hs, fragmentCalls_of_allKnown (@allKnown_globals ns m 0 s hs)⟩
  · refine ⟨?_, fragmentCalls_of_allKnown (@allKnown_exports ns m 0 s c.declarationsOk hs)⟩
    obtain ⟨⟨_, _, h⟩ | ⟨_, h⟩ | ⟨_, _, h⟩ | ⟨_, _, h⟩, -⟩ := isPublic_of_mem_exports hs
    all_goals
      rw [h]
      rfl

/-- What is a fragment, and what is not. -/
theorem fragments_eq : p.fragments = fragmentSequences c.pool ∧
    p.proper = c.functions ++ c.inner ++ [⟨.init, c.init⟩] := by
  have hproper : ∀ s ∈ c.functions ++ c.inner, s.symbol.fragment? = none := fun s hs =>
    (List.mem_append.1 hs).elim c.fragment?_function fun hs => (c.inner_idle hs).1
  have hfragment : ∀ s ∈ fragmentSequences c.pool, s.symbol.fragment?.isSome = true := by
    intro s hs
    obtain ⟨x, -, rfl⟩ := List.mem_map.1 hs
    rfl
  have hinit : (Symbol.init).fragment? = none := rfl
  constructor
  · rw [Program.fragments, c.sequences_eq, List.filter_append, List.filter_append,
      List.filter_eq_nil_iff.2 fun s hs => by simp [hproper s hs], List.filter_eq_self.2 hfragment]
    simp [hinit]
  · rw [Program.proper, c.sequences_eq, List.filter_append, List.filter_append,
      List.filter_eq_self.2 fun s hs => by simp [hproper s hs],
      List.filter_eq_nil_iff.2 fun s hs => by simp [Option.isSome_iff_ne_none.1 (hfragment s hs)]]
    simp [hinit]

/-- The fragments of a compiled module grow from its code. -/
theorem exists_growsFrom : ∃ roots, p.GrowsFrom m roots := by
  obtain ⟨parts, start, roots, hinit, hstart, hsown⟩ := c.exists_sown
  obtain ⟨owned, htrees, howned⟩ := hsown.trees
  obtain ⟨hfragments, hproper⟩ := c.fragments_eq
  have hmemories : fragmentCalls (initMemories c.spaces) = [] := by
    rw [c.spaces_eq]
    exact fragmentCalls_of_allKnown (@allKnown_initMemories ns m 0)
  have hempty : fragmentCalls [.setData memoriesPath .emptyList, .setData globalsPath .emptyList] =
      [] := rfl
  -- A function has a sequence of its own; the other pieces stand in what prepares the module.
  have hstands : ∀ ds ∈ c.functions.map (·.commands) ++ parts,
      ∃ ds' ∈ p.proper.map (·.commands), ds <:+: ds' := by
    intro ds hds
    rw [hproper]
    rcases List.mem_append.1 hds with hds | hds
    · obtain ⟨s, hs, rfl⟩ := List.mem_map.1 hds
      exact ⟨_, List.mem_map_of_mem (List.mem_append_left _ (List.mem_append_left _ hs)),
        List.infix_rfl⟩
    · refine ⟨c.init, List.mem_map.2 ⟨_, List.mem_append_right _ List.mem_cons_self, rfl⟩, ?_⟩
      rw [hinit]
      exact (List.infix_of_mem_flatten hds).trans ⟨_, _, rfl⟩
  refine ⟨roots, hsown.pieces.imp fun _ _ hpiece => hpiece.mono hstands, ?_, ?_, ?_⟩
  · have hinner : c.inner.flatMap (fragmentCalls ·.commands) = [] :=
      List.flatMap_eq_nil_iff.2 fun s hs => (c.inner_idle hs).2
    have hprepare : fragmentCalls c.init = parts.flatMap fragmentCalls := by
      rw [hinit, fragmentCalls_append, fragmentCalls_append, fragmentCalls_append, hempty,
        hmemories, hstart, fragmentCalls_flatten, List.append_nil]
      rfl
    rw [hproper, List.flatMap_append, List.flatMap_append, hinner, List.append_nil,
      List.flatMap_singleton, hprepare, ← hsown.calls, List.flatMap_append, List.flatMap_map]
  · refine ⟨c.pool, owned, hfragments, htrees, ?_⟩
    rw [List.range_eq_range']
    exact howned
  · rintro ⟨t, f⟩ hx
    rw [c.program] at hx
    obtain ⟨s, hs, heq⟩ := List.mem_map.1 hx
    cases heq
    rw [mem_swapOutSequences hs]
    rfl

end Compiled

/-- **The fragments of a compiled module are a forest.**  They grow from the bodies of the functions
    and the constant expressions: the calls of fragments are trees from there on, in which every
    fragment has one place.  A fragment that is called anywhere is there.  And as long as numbers of
    32 bits tell the fragments apart, each has one call site outside of itself, calls itself only
    where a loop goes back, and is reached from one piece of code only. -/
theorem fragments_form_forest (h : compileModule ns m = .ok p) : ∃ roots, p.GrowsFrom m roots ∧
    (∀ s ∈ p.sequences, ∀ i ∈ fragmentCalls s.commands, ∃ t ∈ p.sequences, t.symbol = .fragment i) ∧
    (p.fragments.length ≤ 2 ^ 32 → p.IsForest m roots) := by
  obtain ⟨c⟩ := exists_compiled h
  obtain ⟨roots, hroots⟩ := c.exists_growsFrom
  exact ⟨roots, hroots, fun s hs i hi => hroots.allocated hs hi, hroots.isForest⟩

/-- A module with a loop that goes on behind a branch, a choice between two arms, and a global. -/
def branchingModule : Module where
  types := [⟨[.i32], []⟩]
  funcs := [⟨0, [], [.loop .empty [.localGet 0, .brIf 0, .localGet 0, .drop]]⟩,
    ⟨0, [], [.localGet 0, .ifElse .empty [.localGet 0, .drop] [.i32Const 1, .drop]]⟩]
  globals := [⟨⟨.i32, true⟩, [.i32Const 5]⟩]

theorem fragments_form_forest_branching : ∃ p roots,
    compileModule "demo" branchingModule = .ok p ∧ p.fragments.length = 4 ∧
      p.GrowsFrom branchingModule roots ∧ p.IsForest branchingModule roots := by
  obtain ⟨roots, hgrows, -, hforest⟩ := @fragments_form_forest "demo" branchingModule _ rfl
  exact ⟨_, roots, rfl, by decide, hgrows, hforest (by decide)⟩

end WasmPack.Compile
