/-
  WasmPack.Proofs.Paging.Preparation

  What the memories of modules are when the modules have been prepared.
-/
import WasmPack.Proofs.Execution.Preparation
import WasmPack.Proofs.Paging.Growth
import WasmPack.Proofs.Paging.Parts

namespace WasmPack

open Machine Compile

variable {code : Code} {P : Paging} {σ : State} {ns : String} {spaces : IndexSpaces}
  {parts : List Part} {ps : List Program} {m : Wasm.Module} {p : Program}

/-- The code of parts has what the first pages of a module's memories need. -/
theorem Orderly.begins (h : Orderly parts) (hps : Part.Give parts ps) (hm : .module ns m ∈ parts)
    (c : Compiled ns m p) :
    (ps.foldl Code.addProgram {}).Begins ns 0 c.spaces.memories.toList := by
  intro k limits hk
  rw [Array.getElem?_toList] at hk
  obtain ⟨hlt, hget⟩ := Array.getElem?_eq_some_iff.1 hk
  refine ⟨memoriesOk_ofModule c.spacesOk _ (Array.mem_of_getElem hget) limits rfl, fun hmax => ?_⟩
  rw [Nat.zero_add]
  exact h.hasMemory hps hm c (mem_pagedMemories.2 ⟨k, limits, hk, hmax, rfl⟩)

/-- The lists of memories and of globals of a module are emptied. -/
def Machine.State.emptied (σ : State) (ns : String) : State :=
  (σ.setCell (ownId ns) "mems" .emptyList).setCell (ownId ns) "globals" .emptyList

/-- What the commands that prepare a module begin with gives its memories their first pages. -/
theorem Machine.runs_initHead {J : State → Prop} (hJ : Unpaged J) (hσ : J (σ.emptied ns))
    (hbegins : code.Begins ns 0 spaces.memories.toList)
    (h : P.ShownBy σ) (hlen : spaces.memories.size ≤ 2 ^ 31)
    (hz : σ.cells sharedId "zero_page" = some zeroPage) :
    ∃ σ', Runs code [⟨ns, initHead spaces⟩] σ (.ok ()) σ' ∧
      (P.setMems ns (spaces.memories.toList.map firstPages)).ShownBy σ' ∧
      KeepsBut [.a] (σ.emptied ns) σ' ∧ J σ' := by
  let σ₁ := σ.setCell (ownId ns) "mems" (memsNbt [])
  let σ₂ := σ₁.setCell (ownId ns) "globals" .emptyList
  let P₁ := P.setMems ns []
  have hmems : Steps code.tags ns (.setData memoriesPath .emptyList) σ [] σ₁ :=
    .plain (.setData _ _) (performs_setData_top rfl)
  have hglobals : Steps code.tags ns (.setData globalsPath .emptyList) σ₁ [] σ₂ :=
    .plain (.setData _ _) (performs_setData_top rfl)
  have h₂ : P₁.ShownBy σ₂ := h.setMems.setCell (by decide) (by decide)
  -- No memory is there yet, so the first one that gets pages is number 0.
  have hnil : P₁.mems ns = [] := by simp [P₁, Paging.setMems]
  have hcell : σ₂.cells (ownId ns) "mems" = some (memsNbt (P₁.mems ns)) := by
    rw [hnil]
    simp [σ₂, σ₁]
  have hz₂ : σ₂.cells sharedId "zero_page" = some zeroPage := by
    simp only [σ₂, σ₁, State.cells_setCell]
    rw [if_neg fun hk => absurd hk.2 (by decide), if_neg fun hk => absurd hk.2 (by decide), hz]
  have hbegins₁ : code.Begins ns (P₁.mems ns).length spaces.memories.toList := by
    rw [hnil]
    exact hbegins
  have hends := endsWith_initMemories hJ hσ hbegins₁ h₂ hcell (by simpa [hnil] using hlen) hz₂
  have hall : P₁.setMems ns (P₁.mems ns ++ spaces.memories.toList.map firstPages) =
      P.setMems ns (spaces.memories.toList.map firstPages) := by
    rw [hnil]
    simp [P₁, Paging.setMems]
  rw [hall, hnil] at hends
  obtain ⟨σ', hr, hs, hk, hσ'⟩ := hends
  exact ⟨σ', .plain hmems (.plain hglobals hr), hs, hk, hσ'⟩

/-! ## Nothing but memories -/

section MemoriesModule

variable {limits : Wasm.Limits} {memories : List Wasm.Limits}

/-- A module that has nothing but memories. -/
def memoriesModule (memories : List Wasm.Limits) : Wasm.Module where
  memories := memories

/-- What the module is compiled to only prepares its memories. -/
theorem exists_compiled_memoriesModule (hns : checkNamespace ns = .ok ())
    (hlimits : ∀ limits ∈ memories, checkLimits limits = .ok ()) :
    ∃ p, ∃ c : Compiled ns (memoriesModule memories) p,
      c.init = initHead c.spaces ∧ c.spaces = IndexSpaces.declared (memoriesModule memories) := by
  obtain ⟨spaces, hspaces⟩ : ∃ spaces, spaces = IndexSpaces.declared (memoriesModule memories) :=
    ⟨_, rfl⟩
  have hok : IndexSpaces.ofModule (memoriesModule memories) = .ok spaces := by
    have hdeclarations : DeclarationsOk (memoriesModule memories) :=
      { imports := fun i hi => nomatch hi
        funcs := fun f hf => nomatch hf
        memories := hlimits
        exports := fun e he => nomatch he }
    exact ofModule_eq_ok.2 ⟨hdeclarations, hspaces⟩
  have hlowered : lowerModule spaces (memoriesModule memories) #[] =
      .ok (([], initHead spaces ++ [] ++ [] ++ []), #[]) := by
    rw [hspaces]
    rfl
  rw [List.append_nil, List.append_nil, List.append_nil] at hlowered
  exact ⟨_, ⟨spaces, [], initHead spaces, #[], hns, rfl, hok, hlowered, rfl⟩, rfl, hspaces⟩

/-- Beside the library the module is in order. -/
theorem orderly_memoriesModule (hfew : memories.length ≤ 2 ^ 31) :
    Orderly [.library, .module ns (memoriesModule memories)] := by
  have hmem : ∀ {ns' m'}, .module ns' m' ∈ [Part.library, .module ns (memoriesModule memories)] →
      m' = memoriesModule memories := by
    intro ns' m' h
    simp only [List.mem_cons, List.not_mem_nil, or_false, reduceCtorEq, false_or,
      Part.module.injEq] at h
    exact h.2
  refine ⟨List.mem_cons_self, fun ns' m' m'' hm' hm'' => (hmem hm').trans (hmem hm'').symm,
    fun ns' m' hm' => ?_, fun ns' m' spaces hm' hspaces => ?_⟩
  · rw [hmem hm']
    exact fun e he => nomatch he
  · rw [hmem hm', ofModule_eq_ok] at hspaces
    rw [hspaces.2, ← Array.length_toList, memories_declared]
    simpa [memoriesModule] using hfew

/-- A module that has nothing but a memory. -/
def memoryModule (limits : Wasm.Limits) : Wasm.Module where
  memories := [limits]

/-- What the module is compiled to only prepares its memory. -/
theorem exists_compiled_memoryModule (hns : checkNamespace ns = .ok ())
    (hlimits : checkLimits limits = .ok ()) :
    ∃ p, ∃ c : Compiled ns (memoryModule limits) p,
      c.init = initHead c.spaces ∧ c.spaces = IndexSpaces.declared (memoryModule limits) :=
  exists_compiled_memoriesModule hns fun _ hl => List.mem_singleton.1 hl ▸ hlimits

/-- Beside the library the module is in order. -/
theorem orderly_memoryModule : Orderly [.library, .module ns (memoryModule limits)] :=
  @orderly_memoriesModule ns [limits] Nat.one_le_two_pow

end MemoriesModule

/-! ## Booting -/

/-- The memories of a single module have their first pages, and the window belongs to none. -/
def firstPaging (ns : String) (spaces : IndexSpaces) : Paging :=
  Paging.setMems ⟨some ⟨Page.zero, "", -1⟩, fun _ => []⟩ ns (spaces.memories.toList.map firstPages)

/-- A module of which nothing but its memories is to be prepared can be booted beside the library. -/
theorem Compile.Compiled.exists_boot (c : Compiled ns m p) (hinit : c.init = initHead c.spaces)
    (hfree : NoInitExport m) (hparts : Orderly [.library, .module ns m]) :
    ∃ ps σ, Part.Give [.library, .module ns m] ps ∧
      CanReach [.library, .module ns m] (ps.foldl Code.addProgram {}) σ ∧
      (firstPaging ns c.spaces).ShownBy σ ∧
      (∀ n ∈ Register.seeded, σ.regs (.const n) = some n) ∧
      σ.cells sharedId "zero_page" = some zeroPage := by
  have hm : .module ns m ∈ [Part.library, .module ns m] := List.mem_cons_of_mem _ List.mem_cons_self
  obtain ⟨ps, hps, hprograms⟩ : ∃ ps, Part.Give [.library, .module ns m] ps ∧
    ps = [Library.program, p] := ⟨_, .cons rfl (.cons c.compile_eq .nil), rfl⟩
  obtain ⟨code, hcode⟩ : ∃ code, code = ps.foldl Code.addProgram {} := ⟨_, rfl⟩
  -- Booting prepares the library first, then the module.
  have hlib : code.HasLibrary := hcode ▸ hparts.hasLibrary hps
  have hload := hlib.routine .load sharedNamespace
  have hfirst : code.function (Symbol.init.qualifiedName ns) = .ok ⟨ns, c.init⟩ := by
    rw [hcode]
    exact hparts.init_function hps hm c hfree
  have hmembers : code.tags.load = [Part.loadName, Symbol.init.qualifiedName ns] := by
    rw [hcode, hps.load_members]
    rfl
  have hbegins : code.Begins ns 0 c.spaces.memories.toList := hcode ▸ hparts.begins hps hm c
  obtain ⟨σ₁, hrun₁, hprepared, -, hcells⟩ := @runs_load code ⟨fun _ => none, fun _ _ => none⟩
  have hP : Paging.ShownBy ⟨some ⟨Page.zero, "", -1⟩, fun _ => []⟩ σ₁ :=
    ⟨hprepared.window, fun ns => .inr ⟨hcells _ _ (.inr (by decide)), rfl⟩⟩
  obtain ⟨σ₂, hrun₂, hP₂, hk₂, -⟩ := runs_initHead unpaged_anywhere trivial hbegins hP
    (hparts.few ns m c.spaces hm c.spacesOk) hprepared.zeroPage
  rw [← hinit] at hrun₂
  have hentered : code.functionsOf (code.tags.members .load) =
      .ok [⟨sharedNamespace, Library.loadCommands⟩, ⟨ns, c.init⟩] := by
    show code.functionsOf code.tags.load = _
    rw [hmembers, Code.functionsOf, Code.functionsOf, Part.loadName, hload, hfirst]
    rfl
  have hne : code.tags.members .load ≠ [] := fun h =>
    List.cons_ne_nil _ _ (hmembers.symm.trans h)
  have hboot : Runs code [⟨"minecraft", [.callTag .load]⟩] ⟨fun _ => none, fun _ _ => none⟩
      (.ok ()) σ₂ :=
    .step (.callTag hne) hentered (hrun₁.append (hrun₂.append .nil))
  have hfresh : CanReach [.library, .module ns m] code ⟨fun _ => none, fun _ _ => none⟩ := by
    refine ⟨_, ((Reached.fresh 0).load rfl).load c.compile_eq, ?_, Store.models_empty⟩
    rw [hcode, hprograms]
    rfl
  refine ⟨ps, σ₂, hps, hcode ▸ hfresh.reload hboot, hP₂, fun n hn => ?_, ?_⟩
  · rw [hk₂.regs _ (by simp)]
    exact hprepared.consts n hn
  · rw [hk₂.cells _ _ (by decide) (by decide) (by decide), State.emptied, State.cells_setCell,
      if_neg fun h => absurd h.2 (by decide), State.cells_setCell,
      if_neg fun h => absurd h.2 (by decide)]
    exact hprepared.zeroPage

end WasmPack
