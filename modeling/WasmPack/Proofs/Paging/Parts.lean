/-
  WasmPack.Proofs.Paging.Parts

  Modules that are loaded with the library, each in a namespace of its own.

  Their code has the memories that they define, and the tag that stores the window
  reaches all of them.  Every command of the library and of a compiled module is
  harmless, so every state that a host can bring about is tidy.
-/
import WasmPack.Proofs.Compile.Parts
import WasmPack.Proofs.Compile.Spaces
import WasmPack.Proofs.Paging.Shape

namespace WasmPack

open Machine Compile

variable {ns : String} {c : Command} {cs ds : List Command} {s : Sequence}

/-! ## Lists of harmless commands -/

/-- All the commands are harmless. -/
def AllHarmless (ns : String) (cs : List Command) : Prop := ∀ c ∈ cs, Harmless ns c

@[simp] theorem allHarmless_nil : AllHarmless ns [] := fun _ h => nomatch h

@[simp] theorem allHarmless_cons :
    AllHarmless ns (c :: cs) ↔ Harmless ns c ∧ AllHarmless ns cs := List.forall_mem_cons

@[simp] theorem allHarmless_append :
    AllHarmless ns (cs ++ ds) ↔ AllHarmless ns cs ∧ AllHarmless ns ds := List.forall_mem_append

theorem allHarmless_flatMap {α : Type} {xs : List α} {f : α → List Command}
    (h : ∀ x ∈ xs, AllHarmless ns (f x)) : AllHarmless ns (xs.flatMap f) := by
  intro c hc
  obtain ⟨x, hx, hc⟩ := List.mem_flatMap.1 hc
  exact h x hx c hc

theorem allHarmless_of_ordinary (h : Ordinary cs) : AllHarmless ns cs := by
  intro c hc
  have hc := h c hc
  rw [Command.isOrdinary, Bool.and_eq_true, Bool.and_eq_true] at hc
  exact .neutral hc.1.1 hc.2

theorem allHarmless_of_neutral (h : ∀ c ∈ cs, (c.isNeutral && c.staysHome) = true) :
    AllHarmless ns cs := fun c hc =>
  have ⟨hneutral, hhome⟩ := Bool.and_eq_true_iff.1 (h c hc)
  .neutral hneutral hhome

theorem Harmless.ifIn (h : Harmless ns c) (r : Register) (range : Range) :
    Harmless ns (c.ifIn r range) := .guarded (fun _ _ hg => nomatch hg) h

/-! ## Trees -/

theorem allHarmless_of_mem_tree {t : DispatchTree} {leaf : Nat → Command} {span : Span}
    (hleaf : ∀ key, Harmless ns (leaf key)) (h : s ∈ t.sequences leaf span) :
    AllHarmless ns s.commands :=
  DispatchTree.forall_of_mem_sequences (fun key range => (hleaf key).ifIn _ range)
    (fun _ range _ => Harmless.ifIn (.neutral rfl rfl) _ range) h

/-! ## Memories -/

theorem allHarmless_ownerCheck (i : UInt32) {r : Register} (hr : r.isWork = true) :
    AllHarmless ns (ownerCheck ns i r) := by
  refine allHarmless_of_neutral fun c hc => ?_
  rcases List.mem_cons.1 hc with rfl | hc
  · rfl
  · rw [List.mem_singleton.1 hc]
    simp only [Bool.and_eq_true_iff]
    refine ⟨?_, rfl⟩
    simp [Command.isWithin, Modifier.isWithin, StoreTarget.isWithin, hr]
    rfl

theorem allHarmless_swapIn (i max : UInt32) : AllHarmless ns (swapInCommands ns i max) := by
  have hguard : ∀ {c : Command}, Harmless ns c → Harmless ns (onFault c) := fun h => h.ifIn _ _
  unfold swapInCommands
  simp only [allHarmless_append, allHarmless_cons]
  refine ⟨⟨⟨.neutral rfl rfl, allHarmless_nil⟩, allHarmless_ownerCheck i rfl⟩, .neutral rfl rfl,
    .neutral rfl rfl, hguard (.neutral rfl rfl), hguard (.neutral rfl rfl), hguard (.neutral rfl rfl),
    hguard (.mark _), hguard (.savePage _), allHarmless_nil⟩

theorem allHarmless_access (i : UInt32) (r : Routine) : AllHarmless ns (accessCommands i r) :=
  allHarmless_of_neutral fun c hc => by
    simp only [accessCommands, List.mem_cons, List.not_mem_nil, or_false] at hc
    rcases hc with rfl | rfl | rfl | rfl | rfl | rfl | rfl | rfl <;> rfl

theorem allHarmless_paged {i max : UInt32} (h : s ∈ pagedSequences ns i max) :
    AllHarmless ns s.commands := by
  simp only [pagedSequences, List.mem_append, List.mem_cons, List.not_mem_nil, or_false] at h
  rcases h with (h | h) | rfl | rfl | rfl | rfl | rfl | rfl | rfl | rfl
  · exact allHarmless_of_mem_tree (fun page => .loadPage i page) h
  · exact allHarmless_of_mem_tree (fun page => .storePage i page) h
  · exact allHarmless_swapIn i max
  · exact allHarmless_of_neutral fun c hc => by
      simp only [swapOutCommands, List.mem_cons, List.not_mem_nil, or_false] at hc
      rcases hc with rfl | rfl <;> rfl
  · exact allHarmless_access i _
  · exact allHarmless_access i _
  · exact allHarmless_of_neutral fun c hc => by
      simp only [sizeCommands, List.mem_cons, List.not_mem_nil, or_false] at hc
      rcases hc with rfl | rfl <;> rfl
  · exact allHarmless_of_neutral fun c hc => by
      simp only [growCommands, List.mem_cons, List.not_mem_nil, or_false] at hc
      rcases hc with rfl | rfl | rfl | rfl | rfl | rfl | rfl | rfl | rfl <;> rfl
  · exact allHarmless_of_neutral fun c hc => by
      simp only [growUncheckedCommands, List.mem_cons, List.not_mem_nil, or_false] at hc
      rcases hc with rfl
      rfl
  · simp only [growLoopCommands, allHarmless_cons]
    exact ⟨.addPage i, .neutral rfl rfl, .neutral rfl rfl, allHarmless_nil⟩

theorem allHarmless_memory {i : UInt32} {entry : MemoryEntry} (h : s ∈ memorySequences ns i entry) :
    AllHarmless ns s.commands := by
  cases entry with
  | imported source =>
    obtain ⟨op, -, rfl⟩ := List.mem_map.1 h
    exact allHarmless_cons.2 ⟨.neutral rfl rfl, allHarmless_nil⟩
  | defined limits =>
    simp only [memorySequences] at h
    split at h
    · simp only [pagelessSequences, List.mem_cons, List.not_mem_nil, or_false] at h
      rcases h with rfl | rfl | rfl | rfl
      · exact allHarmless_cons.2 ⟨.neutral rfl rfl, allHarmless_nil⟩
      · exact allHarmless_nil
      · exact allHarmless_cons.2 ⟨.neutral rfl rfl, allHarmless_nil⟩
      · exact allHarmless_cons.2 ⟨.neutral rfl rfl, allHarmless_cons.2 ⟨.neutral rfl rfl, allHarmless_nil⟩⟩
    · exact allHarmless_paged h

theorem allHarmless_swapOutAll (memories : Array MemoryEntry) :
    AllHarmless ns (swapOutAllCommands ns memories) := by
  refine allHarmless_flatMap fun ⟨entry, i⟩ _ => ?_
  simp only
  split
  · exact allHarmless_append.2 ⟨allHarmless_ownerCheck _ rfl,
      allHarmless_cons.2 ⟨.neutral rfl rfl, allHarmless_nil⟩⟩
  · exact allHarmless_nil

theorem allHarmless_initHead (spaces : IndexSpaces) : AllHarmless ns (initHead spaces) := by
  unfold initHead
  simp only [allHarmless_append, allHarmless_cons]
  refine ⟨⟨.noMemories, .neutral rfl rfl, allHarmless_nil⟩, allHarmless_flatMap fun ⟨entry, i⟩ _ => ?_⟩
  refine allHarmless_cons.2 ⟨.addMemory, ?_⟩
  cases entry with
  | imported source => exact allHarmless_nil
  | defined limits =>
    simp only
    split
    · exact allHarmless_cons.2 ⟨.neutral rfl rfl, allHarmless_cons.2 ⟨.neutral rfl rfl, allHarmless_nil⟩⟩
    · exact allHarmless_nil

/-! ## Programs -/

/-- Every command of a compiled module is harmless. -/
theorem Compile.Compiled.allHarmless {m : Wasm.Module} {p : Program} (c : Compiled ns m p)
    (h : s ∈ p.sequences) : AllHarmless ns s.commands := by
  cases c.kind h with
  | function h => exact allHarmless_of_ordinary h.2
  | memory entry i hi h => exact allHarmless_memory h
  | swapOutAll h =>
    rw [h]
    exact allHarmless_swapOutAll _
  | global h => exact allHarmless_of_ordinary (isPublic_of_mem_globals h).2
  | exported h => exact allHarmless_of_ordinary (isPublic_of_mem_exports h).2
  | fragment i hs h => exact allHarmless_of_ordinary h
  | init rest h hinit hs =>
    rw [hs, hinit]
    exact allHarmless_append.2 ⟨allHarmless_initHead _, allHarmless_of_ordinary h⟩

theorem allHarmless_load : AllHarmless sharedNamespace Library.loadCommands := by
  unfold Library.loadCommands
  simp only [allHarmless_append, allHarmless_cons]
  refine ⟨⟨⟨⟨⟨.neutral rfl rfl, allHarmless_nil⟩, fun c hc => ?_⟩, .neutral rfl rfl, allHarmless_nil⟩,
    fun c hc => ?_⟩, .neutral rfl rfl, .window, .zeroPage, allHarmless_nil⟩
  · obtain ⟨n, -, rfl⟩ := List.mem_map.1 hc
    exact .const n
  · obtain ⟨path, hpath, rfl⟩ := List.mem_map.1 hc
    simp only [Library.workLists, List.mem_cons, List.not_mem_nil, or_false] at hpath
    rcases hpath with rfl | rfl | rfl <;> exact .neutral rfl rfl

theorem neutral_routine (r : Routine) (hr : r ≠ .load) :
    ∀ c ∈ Library.routineCommands r, (c.isNeutral && c.staysHome) = true := by
  cases r <;> first | exact absurd rfl hr | decide

/-- Every command of the library is harmless. -/
theorem Library.allHarmless (h : s ∈ Library.program.sequences) :
    AllHarmless sharedNamespace s.commands := by
  obtain h | h := List.mem_append.1 h
  · obtain ⟨r, -, rfl⟩ := List.mem_map.1 h
    by_cases hr : r = .load
    · subst hr
      exact allHarmless_load
    · exact allHarmless_of_neutral (neutral_routine r hr)
  · obtain h | h := List.mem_append.1 h
    · refine allHarmless_of_mem_tree (fun i => .neutral rfl rfl) h
    · exact allHarmless_of_mem_tree (fun i => .saveByte i _) h

/-- The routines of the library mention only what all modules share. -/
theorem Library.sharesPaths_routine (r : Routine) :
    ∀ c ∈ Library.routineCommands r, c.paths.all (·.storage = .shared) = true := by
  cases r <;> decide

/-- So do all of its commands. -/
theorem Library.storage_of_mem_paths (hs : s ∈ Library.program.sequences)
    (hc : c ∈ s.commands) : ∀ p ∈ c.paths, p.storage = .shared := by
  have htree : ∀ {t : DispatchTree} {leaf : Nat → Command} {span : Span},
      (∀ key, ∀ p ∈ (leaf key).paths, p.storage = .shared) → s ∈ t.sequences leaf span →
      ∀ p ∈ c.paths, p.storage = .shared := by
    intro t leaf span hleaf h
    refine DispatchTree.forall_of_mem_sequences (P := fun c => ∀ p ∈ c.paths, p.storage = .shared)
      (fun key range p hp => ?_) (fun _ range _ p hp => (nomatch hp)) h c hc
    rcases Command.mem_paths_guarded.1 hp with hp | hp
    · cases hp
    · exact hleaf key p hp
  rcases List.mem_append.1 hs with hs | hs
  · obtain ⟨r, -, rfl⟩ := List.mem_map.1 hs
    intro p hp
    exact of_decide_eq_true (List.all_eq_true.1 (Library.sharesPaths_routine r c hc) p hp)
  · rcases List.mem_append.1 hs with hs | hs
    · refine htree (fun key p hp => ?_) hs
      rw [List.mem_singleton.1 hp]
      rfl
    · refine htree (fun key p hp => ?_) hs
      rw [List.mem_singleton.1 hp]
      rfl

variable {parts : List Part} {part : Part} {ps : List Program} {p : Program} {m : Wasm.Module}
  {machine : Machine} {x : PagedMemory}

/-! ## Reached states are tidy -/

/-- Every command of a part is harmless. -/
theorem Part.allHarmless (h : part.program = .ok p) (hs : s ∈ p.sequences) :
    AllHarmless p.ns s.commands := by
  cases part with
  | library =>
    cases h
    exact Library.allHarmless hs
  | module ns m =>
    obtain ⟨c⟩ := exists_compiled h
    rw [c.ns_eq]
    exact c.allHarmless hs

/-- Whatever a host does, the state stays tidy. -/
theorem Machine.Reached.tidy (h : Reached parts machine) :
    ∃ σ, machine.store.Models σ ∧ Tidy σ :=
  h.invariant (.of_ignoresWork Tidy.ignoresWork) Tidy.empty fun _ _ _ hp _ hs c hc _ =>
    Harmless.maintains (Part.allHarmless hp hs c hc)

/-! ## Memories of modules -/

/-- The memory at an index, if it may have pages of its own. -/
def pagedMemory? (ns : String) : MemoryEntry × Nat → Option PagedMemory
  | (.defined limits, i) =>
    if effectiveMax limits = 0 then none else some ⟨⟨ns, i⟩, effectiveMax limits⟩
  | (.imported _, _) => none

/-- The memories of a module that may have pages. -/
def pagedMemories (ns : String) (memories : Array MemoryEntry) : List PagedMemory :=
  memories.toList.zipIdx.filterMap (pagedMemory? ns)

theorem mem_pagedMemories {memories : Array MemoryEntry} : x ∈ pagedMemories ns memories ↔
    ∃ (i : Nat) (limits : Wasm.Limits), memories[i]? = some (.defined limits) ∧
      effectiveMax limits ≠ 0 ∧ x = ⟨⟨ns, i⟩, effectiveMax limits⟩ := by
  unfold pagedMemories
  rw [List.mem_filterMap]
  constructor
  · rintro ⟨⟨entry, i⟩, hmem, hx⟩
    rw [List.mem_zipIdx_iff_getElem?] at hmem
    cases entry with
    | imported source => cases hx
    | defined limits =>
      simp only [pagedMemory?] at hx
      split at hx
      · cases hx
      · rename_i hmax
        exact ⟨i, limits, by simpa using hmem, hmax, (Option.some.inj hx).symm⟩
  · rintro ⟨i, limits, hi, hmax, rfl⟩
    refine ⟨(.defined limits, i), ?_, ?_⟩
    · rw [List.mem_zipIdx_iff_getElem?]
      simpa using hi
    · simp only [pagedMemory?, if_neg hmax]

/-- The window is stored by the memories that may have pages. -/
theorem swapOutAllCommands_eq (memories : Array MemoryEntry) : swapOutAllCommands ns memories =
    (pagedMemories ns memories).flatMap fun x => swapOutIfOwner ns (UInt32.ofNat x.id.index) := by
  unfold swapOutAllCommands pagedMemories
  generalize memories.toList.zipIdx = entries
  induction entries with
  | nil => rfl
  | cons e entries ih =>
    obtain ⟨entry, i⟩ := e
    rw [List.flatMap_cons, ih, List.filterMap_cons]
    have hhead : (if entry.isPaged then swapOutIfOwner ns (UInt32.ofNat i) else []) =
        match pagedMemory? ns (entry, i) with
        | none => []
        | some x => swapOutIfOwner ns (UInt32.ofNat x.id.index) := by
      cases entry with
      | imported source => rfl
      | defined limits =>
        simp only [pagedMemory?]
        by_cases hmax : effectiveMax limits = 0
        · rw [if_neg fun h => isPaged_defined.1 h hmax, if_pos hmax]
        · rw [if_pos (isPaged_defined.2 hmax), if_neg hmax]
    simp only [hhead]
    cases pagedMemory? ns (entry, i) <;> rfl

/-- The memories of a part that may have pages. -/
def Part.group : Part → MemoryGroup
  | .library => ⟨sharedNamespace, []⟩
  | .module ns m =>
    match IndexSpaces.ofModule m with
    | .ok spaces => ⟨ns, pagedMemories ns spaces.memories⟩
    | .error _ => ⟨ns, []⟩

/-- The memories of all parts, without the parts that have none. -/
def groupsOf (parts : List Part) : List MemoryGroup :=
  (parts.map Part.group).filter fun g => !g.memories.isEmpty

theorem Compile.Compiled.group_eq (c : Compiled ns m p) :
    (Part.module ns m).group = ⟨ns, pagedMemories ns c.spaces.memories⟩ := by
  rw [Part.group, c.spacesOk]

theorem mem_allMemories_groupsOf : x ∈ allMemories (groupsOf parts) ↔
    ∃ part ∈ parts, x ∈ part.group.memories := by
  unfold allMemories groupsOf
  rw [List.mem_flatMap]
  constructor
  · rintro ⟨g, hg, hx⟩
    obtain ⟨part, hpart, rfl⟩ := List.mem_map.1 (List.mem_filter.1 hg).1
    exact ⟨part, hpart, hx⟩
  · rintro ⟨part, hpart, hx⟩
    refine ⟨part.group, List.mem_filter.2 ⟨List.mem_map.2 ⟨part, hpart, rfl⟩, ?_⟩, hx⟩
    cases hm : part.group.memories with
    | nil =>
      rw [hm] at hx
      cases hx
    | cons y ys => rfl

/-! ## Memories of parts -/

/-- Marks tell memories apart. -/
theorem MemoryId.mark_inj {m m' : MemoryId} (h : ':' ∉ m.ns.toList) (h' : ':' ∉ m'.ns.toList) :
    m.mark = m'.mark ↔ m = m' := by
  have hcolon : ":".toList = [':'] := by decide
  rw [mark, mark, ← String.toList_inj]
  simp only [String.toList_append, hcolon, List.append_assoc, List.singleton_append]
  rw [append_separator_inj h h', String.toList_inj, String.toList_inj, toString_nat_inj]
  cases m
  cases m'
  simp

/-- The marks of loaded memories tell them apart. -/
theorem Part.Give.mark_inj (hps : Part.Give parts ps) {y : PagedMemory}
    (hx : x ∈ allMemories (groupsOf parts))
    (hy : y ∈ allMemories (groupsOf parts)) (hmark : x.id.mark = y.id.mark) : x.id = y.id := by
  have hcolonless : ∀ {z}, z ∈ allMemories (groupsOf parts) → ':' ∉ z.id.ns.toList := by
    intro z hz
    obtain ⟨part, hpart, hz⟩ := mem_allMemories_groupsOf.1 hz
    cases part with
    | library => cases hz
    | module ns m =>
      obtain ⟨p, -, hp⟩ := hps.exists_program hpart
      obtain ⟨c⟩ := exists_compiled hp
      rw [c.group_eq] at hz
      obtain ⟨i, limits, -, -, rfl⟩ := mem_pagedMemories.1 hz
      exact (checkNamespace_eq_ok c.namespaceOk).2
  exact (MemoryId.mark_inj (hcolonless hx) (hcolonless hy)).1 hmark

namespace Orderly

variable (h : Orderly parts) (hps : Part.Give parts ps)

include h

/-- Indices and page numbers of a module's memories fit into registers. -/
theorem fits (hm : .module ns m ∈ parts) (c : Compiled ns m p)
    (hx : x ∈ pagedMemories ns c.spaces.memories) : x.Fits := by
  obtain ⟨i, limits, hi, hmax, rfl⟩ := mem_pagedMemories.1 hx
  have hfew := h.few ns m c.spaces hm c.spacesOk
  obtain ⟨hlt, hget⟩ := Array.getElem?_eq_some_iff.1 hi
  have hok := memoriesOk_ofModule c.spacesOk _ (Array.mem_of_getElem hget) limits rfl
  have hsmall : i < 2 ^ 31 := by omega
  exact ⟨hsmall, hok.max⟩

include hps

/-- What belongs to a memory of a module is found. -/
theorem memory_function {entry : MemoryEntry} {i : Nat} (hm : .module ns m ∈ parts)
    (c : Compiled ns m p) (hi : c.spaces.memories[i]? = some entry)
    (hs : s ∈ memorySequences ns (UInt32.ofNat i) entry) :
    (ps.foldl Code.addProgram {}).function (s.symbol.qualifiedName ns) = .ok ⟨ns, s.commands⟩ := by
  have hfew := h.few ns m c.spaces hm c.spacesOk
  have hlt : i < c.spaces.memories.size := by
    obtain ⟨hlt, -⟩ := Array.getElem?_eq_some_iff.1 hi
    exact hlt
  have hmem := oneEach_memory.isOfMemory s hs
  refine h.function_eq hps hm c (c.mem_memorySequences hi hs) hmem.isInternal fun t ht hsymbol => ?_
  rw [c.eq_of_memory_symbol hi (by omega) hfew hs ht hsymbol.symm]

/-- The memories of a module are found. -/
theorem hasMemory (hm : .module ns m ∈ parts) (c : Compiled ns m p)
    (hx : x ∈ pagedMemories ns c.spaces.memories) : (ps.foldl Code.addProgram {}).HasMemory x := by
  obtain ⟨i, limits, hi, hmax, rfl⟩ := mem_pagedMemories.1 hx
  have hpaged : memorySequences ns (UInt32.ofNat i) (.defined limits) =
      pagedSequences ns (UInt32.ofNat i) (effectiveMax limits) := if_neg hmax
  intro s hs
  exact h.memory_function hps hm c hi (hpaged ▸ hs)

/-- The tag that stores the window names the function of a module that has memories with pages. -/
theorem functionsOf_tagMembers (hpart : part ∈ parts) (hp : part.program = .ok p) :
    (ps.foldl Code.addProgram {}).functionsOf (p.tagMembers .swapOut) =
      .ok ((([part].map Part.group).filter fun g => !g.memories.isEmpty).map (·.swapOutAll)) := by
  cases part with
  | library =>
    cases hp
    rfl
  | module ns m =>
    obtain ⟨c⟩ := exists_compiled hp
    have hcommands : swapOutAllCommands ns c.spaces.memories = _ :=
      swapOutAllCommands_eq c.spaces.memories
    rw [List.map_singleton, c.group_eq]
    cases hx : pagedMemories ns c.spaces.memories with
    | nil =>
      have hnone : swapOutSequences ns c.spaces = [] := by
        rw [swapOutSequences, hcommands, hx]
        rfl
      have htags : p.tagMembers .swapOut = [] := by
        rw [Program.tagMembers, c.program, hnone]
        rfl
      rw [htags]
      rfl
    | cons x xs =>
      have hseq : swapOutSequences ns c.spaces =
          [⟨.swapOutAll, swapOutAllCommands ns c.spaces.memories⟩] := by
        rw [swapOutSequences, hcommands, hx]
        rfl
      have htags : p.tagMembers .swapOut = [Symbol.swapOutAll.qualifiedName ns] := by
        rw [Program.tagMembers, c.program, hseq]
        rfl
      have hmem := c.mem_swapOutAll (hseq ▸ List.mem_cons_self)
      have hfind := h.function_eq hps hpart c hmem (List.cons_ne_nil _ _)
        fun t ht hsymbol => by rw [c.eq_of_swapOutAll_symbol ht hsymbol]
      rw [htags, Code.functionsOf]
      rw [hfind, hcommands, hx]
      rfl

/-- The memories of all parts are found, and the tag reaches them. -/
theorem pages : (ps.foldl Code.addProgram {}).Pages (groupsOf parts) where
  ns_eq g hg x hx := by
    obtain ⟨part, hpart, rfl⟩ := List.mem_map.1 (List.mem_filter.1 hg).1
    cases part with
    | library => cases hx
    | module ns m =>
      obtain ⟨p, -, hp⟩ := hps.exists_program hpart
      obtain ⟨c⟩ := exists_compiled hp
      rw [c.group_eq] at hx ⊢
      obtain ⟨i, limits, -, -, rfl⟩ := mem_pagedMemories.1 hx
      rfl
  hasMemory x hx := by
    obtain ⟨part, hpart, hx⟩ := mem_allMemories_groupsOf.1 hx
    cases part with
    | library => cases hx
    | module ns m =>
      obtain ⟨p, -, hp⟩ := hps.exists_program hpart
      obtain ⟨c⟩ := exists_compiled hp
      rw [c.group_eq] at hx
      exact h.hasMemory hps hpart c hx
  fits x hx := by
    obtain ⟨part, hpart, hx⟩ := mem_allMemories_groupsOf.1 hx
    cases part with
    | library => cases hx
    | module ns m =>
      obtain ⟨p, -, hp⟩ := hps.exists_program hpart
      obtain ⟨c⟩ := exists_compiled hp
      rw [c.group_eq] at hx
      exact h.fits hpart c hx
  members := by
    rw [swapOut_foldl_addProgram, groupsOf]
    -- The induction is on the parts that are still to come; the code is that of all of them.
    have hrest : ∀ {rest qs}, Part.Give rest qs → rest ⊆ parts →
        (ps.foldl Code.addProgram {}).functionsOf (qs.flatMap (·.tagMembers .swapOut)) =
          .ok (((rest.map Part.group).filter fun g => !g.memories.isEmpty).map (·.swapOutAll)) := by
      intro rest qs hqs hsub
      induction hqs with
      | nil => rfl
      | @cons part q rest qs hq hqs ih =>
        rw [List.cons_subset] at hsub
        have hone := h.functionsOf_tagMembers hps hsub.1 hq
        have hall := functionsOf_append hone (ih hsub.2)
        rw [← List.map_append, ← List.filter_append, ← List.map_append] at hall
        exact hall
    exact hrest hps fun _ hpart => hpart

end Orderly

end WasmPack
