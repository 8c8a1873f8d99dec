/-
  WasmPack.Proofs.Compile.Spaces

  What is known of the index spaces of a module that can be compiled: memories
  that it defines have limits that were checked, exported functions are there,
  and without imports everything is its own.
-/
import WasmPack.Compile.Paging
import WasmPack.Proofs.Compile.Contents

namespace WasmPack.Compile

open Wasm

variable {s : IndexSpaces} {m : Module}

/-! ## Memories -/

/-- The limits can be honoured by the paging of memories. -/
structure LimitsOk (limits : Limits) : Prop where
  max : (effectiveMax limits).toNat ≤ 65536
  min : limits.min.toNat ≤ (effectiveMax limits).toNat

theorem limitsOk_of_checkLimits {limits : Limits} (h : checkLimits limits = .ok ()) :
    LimitsOk limits := by
  simp only [checkLimits] at h
  split at h
  · cases h
  · rename_i hmax
    split at h
    · cases h
    · rename_i hmin
      rw [UInt32.not_lt, UInt32.le_iff_toNat_le] at hmax hmin
      exact ⟨hmax, hmin⟩

/-- A memory has pages of its own exactly if it may have any. -/
theorem isPaged_defined {limits : Limits} :
    (MemoryEntry.defined limits).isPaged = true ↔ effectiveMax limits ≠ 0 := by
  show decide (0 < effectiveMax limits) = true ↔ _
  rw [decide_eq_true_eq, UInt32.lt_iff_toNat_lt, ne_eq, ← UInt32.toNat_inj]
  exact Nat.pos_iff_ne_zero

/-- The memories that are defined have limits that can be honoured. -/
def MemoriesOk (s : IndexSpaces) : Prop :=
  ∀ entry ∈ s.memories, ∀ limits, entry = .defined limits → LimitsOk limits

/-- A module's memories have limits that can be honoured. -/
theorem memoriesOk_ofModule (h : IndexSpaces.ofModule m = .ok s) : MemoriesOk s := by
  obtain ⟨hm, rfl⟩ := ofModule_eq_ok.1 h
  rintro entry hentry limits rfl
  rw [← Array.mem_toList_iff, memories_declared] at hentry
  obtain hentry | hentry := List.mem_append.1 hentry
  · obtain ⟨i, -, hi⟩ := List.mem_filterMap.1 hentry
    unfold importedMemory? at hi
    split at hi <;> cases hi
  · obtain ⟨limits', hmem, heq⟩ := List.mem_map.1 hentry
    cases heq
    exact limitsOk_of_checkLimits (hm.memories limits hmem)

/-! ## Exports -/

/-- The functions that are exported are there. -/
theorem exists_exported (h : IndexSpaces.ofModule m = .ok s) {e : Export} (he : e ∈ m.exports)
    (hkind : e.kind = .func) : ∃ entry, s.funcAt e.index = .ok entry := by
  obtain ⟨hm, rfl⟩ := ofModule_eq_ok.1 h
  have hindex := (checkExport_eq_ok.1 (hm.exports e he)).2
  rwa [hkind] at hindex

/-! ## Imports and types -/

/-- What is imported is what the imports of the module name. -/
structure FromImports (m : Module) (s : IndexSpaces) : Prop where
  funcs : ∀ {type source}, .imported type source ∈ s.funcs →
    ∃ i ∈ m.imports, source = ⟨i.origin, i.member⟩
  memories : ∀ {source}, .imported source ∈ s.memories →
    ∃ i ∈ m.imports, source = ⟨i.origin, i.member⟩
  globals : ∀ {type source}, .imported type source ∈ s.globals →
    ∃ i ∈ m.imports, source = ⟨i.origin, i.member⟩

theorem fromImports_declared : FromImports m (.declared m) := by
  refine ⟨fun {type source} hentry => ?_, fun {source} hentry => ?_, fun {type source} hentry => ?_⟩
  · rw [← Array.mem_toList_iff, funcs_declared] at hentry
    obtain hentry | hentry := List.mem_append.1 hentry
    · obtain ⟨i, hi, hentry⟩ := List.mem_filterMap.1 hentry
      unfold importedFunc? at hentry
      split at hentry
      · obtain ⟨_, -, heq⟩ := Option.map_eq_some_iff.1 hentry
        cases heq
        exact ⟨i, hi, rfl⟩
      · cases hentry
    · obtain ⟨f, -, hentry⟩ := List.mem_filterMap.1 hentry
      obtain ⟨_, -, heq⟩ := Option.map_eq_some_iff.1 hentry
      cases heq
  · rw [← Array.mem_toList_iff, memories_declared] at hentry
    obtain hentry | hentry := List.mem_append.1 hentry
    · obtain ⟨i, hi, hentry⟩ := List.mem_filterMap.1 hentry
      unfold importedMemory? at hentry
      split at hentry <;> cases hentry
      exact ⟨i, hi, rfl⟩
    · obtain ⟨_, -, heq⟩ := List.mem_map.1 hentry
      cases heq
  · rw [← Array.mem_toList_iff, globals_declared] at hentry
    obtain hentry | hentry := List.mem_append.1 hentry
    · obtain ⟨i, hi, hentry⟩ := List.mem_filterMap.1 hentry
      unfold importedGlobal? at hentry
      split at hentry <;> cases hentry
      exact ⟨i, hi, rfl⟩
    · obtain ⟨g, -, heq⟩ := List.mem_map.1 hentry
      cases heq

/-- What is imported comes from a namespace that a module can have. -/
structure OriginsOk (s : IndexSpaces) : Prop where
  funcs : ∀ type source, .imported type source ∈ s.funcs → checkNamespace source.origin = .ok ()
  memories : ∀ source, .imported source ∈ s.memories → checkNamespace source.origin = .ok ()
  globals : ∀ type source, .imported type source ∈ s.globals →
    checkNamespace source.origin = .ok ()

theorem originsOk_ofModule (h : IndexSpaces.ofModule m = .ok s) : OriginsOk s := by
  obtain ⟨hm, rfl⟩ := ofModule_eq_ok.1 h
  have hfrom := @fromImports_declared m
  refine ⟨fun type source hentry => ?_, fun source hentry => ?_, fun type source hentry => ?_⟩
  · obtain ⟨i, hi, rfl⟩ := hfrom.funcs hentry
    exact (hm.imports i hi).origin
  · obtain ⟨i, hi, rfl⟩ := hfrom.memories hentry
    exact (hm.imports i hi).origin
  · obtain ⟨i, hi, rfl⟩ := hfrom.globals hentry
    exact (hm.imports i hi).origin

/-- The type of a function is one of the module's. -/
theorem type_mem_of_funcAt (h : IndexSpaces.ofModule m = .ok s) {index : UInt32} {entry : FuncEntry}
    (hentry : s.funcAt index = .ok entry) : entry.type ∈ m.types := by
  obtain ⟨-, rfl⟩ := ofModule_eq_ok.1 h
  have hmem := Array.mem_of_getElem? (entryAt_eq_ok.1 hentry)
  rw [← Array.mem_toList_iff, funcs_declared] at hmem
  obtain hmem | hmem := List.mem_append.1 hmem
  · obtain ⟨i, -, hi⟩ := List.mem_filterMap.1 hmem
    unfold importedFunc? at hi
    split at hi
    · obtain ⟨type, htype, rfl⟩ := Option.map_eq_some_iff.1 hi
      exact List.mem_toArray.1 (Array.mem_of_getElem? htype)
    · cases hi
  · obtain ⟨f, -, hf⟩ := List.mem_filterMap.1 hmem
    obtain ⟨type, htype, rfl⟩ := Option.map_eq_some_iff.1 hf
    exact List.mem_toArray.1 (Array.mem_of_getElem? htype)

/-! ## Modules without imports -/

/-- Everything that indices mean is defined by the module. -/
structure OwnOnly (m : Module) (s : IndexSpaces) : Prop where
  types : s.types = m.types.toArray
  funcs : ∀ entry ∈ s.funcs, ∃ type ∈ m.types, ∃ f ∈ m.funcs,
    entry = .defined type f.locals f.body
  memories : ∀ entry ∈ s.memories, ∃ limits, entry = .defined limits
  globals : ∀ entry ∈ s.globals, ∃ type init, entry = .defined type init

theorem ownOnly_ofModule (h : IndexSpaces.ofModule m = .ok s) (hm : m.imports = []) :
    OwnOnly m s := by
  obtain ⟨-, rfl⟩ := ofModule_eq_ok.1 h
  refine ⟨types_declared, fun entry hentry => ?_, fun entry hentry => ?_, fun entry hentry => ?_⟩
  · rw [← Array.mem_toList_iff, funcs_declared, hm, List.filterMap_nil, List.nil_append] at hentry
    obtain ⟨f, hf, hentry⟩ := List.mem_filterMap.1 hentry
    obtain ⟨type, htype, rfl⟩ := Option.map_eq_some_iff.1 hentry
    exact ⟨type, List.mem_toArray.1 (Array.mem_of_getElem? htype), f, hf, rfl⟩
  · rw [← Array.mem_toList_iff, memories_declared, hm, List.filterMap_nil, List.nil_append]
      at hentry
    obtain ⟨limits, -, rfl⟩ := List.mem_map.1 hentry
    exact ⟨limits, rfl⟩
  · rw [← Array.mem_toList_iff, globals_declared, hm, List.filterMap_nil, List.nil_append] at hentry
    obtain ⟨g, -, rfl⟩ := List.mem_map.1 hentry
    exact ⟨g.type, g.init, rfl⟩

end WasmPack.Compile
