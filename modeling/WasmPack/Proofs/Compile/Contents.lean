/-
  WasmPack.Proofs.Compile.Contents

  What the index spaces of a module contain, read off its declarations, and when
  they can be built at all: exactly if every import, function, memory and export
  passes its own check.
-/
import WasmPack.Compile.IndexSpaces
import WasmPack.Proofs.State.Basic

namespace WasmPack.Compile

open Wasm

variable {types : Array FuncType} {s s' : IndexSpaces} {m : Module}

/-! ## Entries that declarations give -/

/-- The function that an import provides. -/
def importedFunc? (types : Array FuncType) (i : Import) : Option FuncEntry :=
  match i.desc with
  | .func index => types[index.toNat]?.map (.imported · ⟨i.origin, i.member⟩)
  | _ => none

/-- The memory that an import provides. -/
def importedMemory? (i : Import) : Option MemoryEntry :=
  match i.desc with
  | .memory _ => some (.imported ⟨i.origin, i.member⟩)
  | _ => none

/-- The global that an import provides. -/
def importedGlobal? (i : Import) : Option GlobalEntry :=
  match i.desc with
  | .global type => some (.imported type ⟨i.origin, i.member⟩)
  | _ => none

/-- A function that the module defines, if its type is there. -/
def definedFunc? (types : Array FuncType) (f : Func) : Option FuncEntry :=
  types[f.typeIndex.toNat]?.map (.defined · f.locals f.body)

/-- A global that the module defines. -/
def definedGlobal (g : Global) : GlobalEntry := .defined g.type g.init

namespace IndexSpaces

/-- Index spaces with more entries behind those that are there. -/
def extend (s : IndexSpaces) (funcs : List FuncEntry) (memories : List MemoryEntry)
    (globals : List GlobalEntry) : IndexSpaces where
  types := s.types
  funcs := s.funcs ++ funcs.toArray
  memories := s.memories ++ memories.toArray
  globals := s.globals ++ globals.toArray

@[simp] theorem extend_nil : s.extend [] [] [] = s := by
  simp [extend]

@[simp] theorem types_extend {fs : List FuncEntry} {ms : List MemoryEntry} {gs : List GlobalEntry} :
    (s.extend fs ms gs).types = s.types := rfl

@[simp] theorem extend_extend {fs fs' : List FuncEntry} {ms ms' : List MemoryEntry}
    {gs gs' : List GlobalEntry} :
    (s.extend fs ms gs).extend fs' ms' gs' = s.extend (fs ++ fs') (ms ++ ms') (gs ++ gs') := by
  simp [extend, Array.append_assoc]

/-- The index spaces that a module declares. -/
def declared (m : Module) : IndexSpaces :=
  let types := m.types.toArray
  { types : IndexSpaces }.extend
    (m.imports.filterMap (importedFunc? types) ++ m.funcs.filterMap (definedFunc? types))
    (m.imports.filterMap importedMemory? ++ m.memories.map .defined)
    (m.imports.filterMap importedGlobal? ++ m.globals.map definedGlobal)

end IndexSpaces

/-! ## Checks of declarations -/

/-- What an import provides is supported, and means something. -/
def DescOk (types : Array FuncType) : ImportDesc → Prop
  | .func index => index.toNat < types.size
  | .memory limits => checkLimits limits = .ok ()
  | .global _ => True
  | .table _ => False

/-- An import that is accepted. -/
structure ImportOk (types : Array FuncType) (i : Import) : Prop where
  origin : checkNamespace i.origin = .ok ()
  member : checkName .imported i.member = .ok ()
  desc : DescOk types i.desc

theorem entryAt_eq_ok {α : Type} {kind : IndexKind} {entries : Array α} {index : UInt32} {entry : α} :
    entryAt kind entries index = .ok entry ↔ entries[index.toNat]? = some entry := by
  unfold entryAt
  split
  · rename_i e he
    rw [he]
    exact ⟨fun h => by cases h; rfl, fun h => by cases h; rfl⟩
  · rename_i he
    rw [he]
    exact ⟨(fun h => nomatch h), fun h => nomatch h⟩

theorem addImport_eq_ok {i : Import} : s.addImport i = .ok s' ↔ ImportOk s.types i ∧
    s' = s.extend (importedFunc? s.types i).toList (importedMemory? i).toList
      (importedGlobal? i).toList := by
  obtain ⟨origin, member, desc⟩ := i
  unfold IndexSpaces.addImport
  constructor
  · intro h
    obtain ⟨_, horigin, h⟩ := except_bind_eq_ok.1 h
    obtain ⟨_, hmember, h⟩ := except_bind_eq_ok.1 h
    cases desc with
    | func index =>
      obtain ⟨type, htype, h⟩ := except_bind_eq_ok.1 h
      cases h
      have htype := entryAt_eq_ok.1 htype
      refine ⟨⟨horigin, hmember, (Array.getElem?_eq_some_iff.1 htype).1⟩, ?_⟩
      simp [importedFunc?, importedMemory?, importedGlobal?, IndexSpaces.extend, htype]
    | memory limits =>
      obtain ⟨_, hlimits, h⟩ := except_bind_eq_ok.1 h
      cases h
      refine ⟨⟨horigin, hmember, hlimits⟩, ?_⟩
      simp [importedFunc?, importedMemory?, importedGlobal?, IndexSpaces.extend]
    | global type =>
      cases h
      refine ⟨⟨horigin, hmember, trivial⟩, ?_⟩
      simp [importedFunc?, importedMemory?, importedGlobal?, IndexSpaces.extend]
    | table type => cases h
  · rintro ⟨⟨horigin, hmember, hdesc⟩, rfl⟩
    refine except_bind_eq_ok.2 ⟨(), horigin, except_bind_eq_ok.2 ⟨(), hmember, ?_⟩⟩
    cases desc with
    | func index =>
      have htype := Array.getElem?_eq_getElem hdesc
      refine except_bind_eq_ok.2 ⟨_, entryAt_eq_ok.2 htype, ?_⟩
      simp [importedFunc?, importedMemory?, importedGlobal?, IndexSpaces.extend, htype]
      rfl
    | memory limits =>
      refine except_bind_eq_ok.2 ⟨(), hdesc, ?_⟩
      simp [importedFunc?, importedMemory?, importedGlobal?, IndexSpaces.extend]
      rfl
    | global type =>
      simp [importedFunc?, importedMemory?, importedGlobal?, IndexSpaces.extend]
      rfl
    | table type => exact hdesc.elim

theorem foldlM_addImport_eq_ok {imports : List Import} :
    imports.foldlM IndexSpaces.addImport s = .ok s' ↔ (∀ i ∈ imports, ImportOk s.types i) ∧
      s' = s.extend (imports.filterMap (importedFunc? s.types))
        (imports.filterMap importedMemory?) (imports.filterMap importedGlobal?) := by
  induction imports generalizing s with
  | nil =>
    rw [List.foldlM_nil]
    simp [pure, Except.pure, eq_comm]
  | cons i imports ih =>
    rw [List.foldlM_cons, except_bind_eq_ok]
    simp only [addImport_eq_ok, ih, List.forall_mem_cons]
    have hcons : ∀ {α : Type} {f : Import → Option α},
        (i :: imports).filterMap f = (f i).toList ++ imports.filterMap f := by
      intro α f
      cases hf : f i <;> simp [hf]
    constructor
    · rintro ⟨_, ⟨hi, rfl⟩, himports, rfl⟩
      exact ⟨⟨hi, himports⟩, by simp [hcons]⟩
    · rintro ⟨⟨hi, himports⟩, rfl⟩
      exact ⟨_, ⟨hi, rfl⟩, himports, by simp [hcons]⟩

theorem foldlM_addFunc_eq_ok {funcs : List Func} :
    funcs.foldlM IndexSpaces.addFunc s = .ok s' ↔
      (∀ f ∈ funcs, f.typeIndex.toNat < s.types.size) ∧
        s' = s.extend (funcs.filterMap (definedFunc? s.types)) [] [] := by
  induction funcs generalizing s with
  | nil =>
    rw [List.foldlM_nil]
    simp [pure, Except.pure, eq_comm]
  | cons f funcs ih =>
    rw [List.foldlM_cons, except_bind_eq_ok]
    simp only [ih, List.forall_mem_cons]
    constructor
    · rintro ⟨_, h, hfuncs, rfl⟩
      obtain ⟨type, htype, h⟩ := except_bind_eq_ok.1 h
      cases h
      have htype := entryAt_eq_ok.1 htype
      refine ⟨⟨(Array.getElem?_eq_some_iff.1 htype).1, hfuncs⟩, ?_⟩
      simp [IndexSpaces.extend, definedFunc?, htype]
    · rintro ⟨⟨hf, hfuncs⟩, rfl⟩
      have htype := Array.getElem?_eq_getElem hf
      refine ⟨s.extend [.defined s.types[f.typeIndex.toNat] f.locals f.body] [] [],
        except_bind_eq_ok.2 ⟨_, entryAt_eq_ok.2 htype, ?_⟩, hfuncs, ?_⟩
      · simp [IndexSpaces.extend]
        rfl
      · simp [definedFunc?, htype]

theorem foldlM_addMemory_eq_ok {memories : List Limits} :
    memories.foldlM IndexSpaces.addMemory s = .ok s' ↔
      (∀ limits ∈ memories, checkLimits limits = .ok ()) ∧
        s' = s.extend [] (memories.map .defined) [] := by
  induction memories generalizing s with
  | nil =>
    rw [List.foldlM_nil]
    simp [pure, Except.pure, eq_comm]
  | cons limits memories ih =>
    rw [List.foldlM_cons, except_bind_eq_ok]
    simp only [ih, List.forall_mem_cons]
    constructor
    · rintro ⟨_, h, hmemories, rfl⟩
      obtain ⟨_, hlimits, h⟩ := except_bind_eq_ok.1 h
      cases h
      exact ⟨⟨hlimits, hmemories⟩, by simp [IndexSpaces.extend]⟩
    · rintro ⟨⟨hlimits, hmemories⟩, rfl⟩
      refine ⟨s.extend [] [.defined limits] [], except_bind_eq_ok.2 ⟨(), hlimits, ?_⟩,
        hmemories, by simp⟩
      simp [IndexSpaces.extend]
      rfl

theorem foldl_addGlobal {globals : List Global} :
    globals.foldl IndexSpaces.addGlobal s = s.extend [] [] (globals.map definedGlobal) := by
  induction globals generalizing s with
  | nil => simp
  | cons g globals ih =>
    rw [List.foldl_cons, ih]
    simp [IndexSpaces.addGlobal, IndexSpaces.extend, definedGlobal]

/-! ## Index spaces of a module -/

theorem types_declared : (IndexSpaces.declared m).types = m.types.toArray := rfl

theorem funcs_declared : (IndexSpaces.declared m).funcs.toList =
    m.imports.filterMap (importedFunc? m.types.toArray) ++
      m.funcs.filterMap (definedFunc? m.types.toArray) := by
  simp [IndexSpaces.declared, IndexSpaces.extend]

theorem memories_declared : (IndexSpaces.declared m).memories.toList =
    m.imports.filterMap importedMemory? ++ m.memories.map .defined := by
  simp [IndexSpaces.declared, IndexSpaces.extend]

theorem globals_declared : (IndexSpaces.declared m).globals.toList =
    m.imports.filterMap importedGlobal? ++ m.globals.map definedGlobal := by
  simp [IndexSpaces.declared, IndexSpaces.extend]

/-- A module whose declarations are in order. -/
structure DeclarationsOk (m : Module) : Prop where
  imports : ∀ i ∈ m.imports, ImportOk m.types.toArray i
  funcs : ∀ f ∈ m.funcs, f.typeIndex.toNat < m.types.toArray.size
  memories : ∀ limits ∈ m.memories, checkLimits limits = .ok ()
  exports : ∀ e ∈ m.exports, (IndexSpaces.declared m).checkExport e = .ok ()

/-- The index means something of the kind. -/
def Designates (s : IndexSpaces) (index : UInt32) : ExportKind → Prop
  | .func => ∃ entry, s.funcAt index = .ok entry
  | .memory => ∃ entry, s.memoryAt index = .ok entry
  | .global => ∃ entry, s.globalAt index = .ok entry
  | .table => False

theorem checkExport_eq_ok {e : Export} : s.checkExport e = .ok () ↔
    checkName .exported e.name = .ok () ∧ Designates s e.index e.kind := by
  unfold IndexSpaces.checkExport
  rw [except_bind_eq_ok]
  constructor
  · rintro ⟨_, hname, h⟩
    refine ⟨hname, ?_⟩
    cases hkind : e.kind with
    | func => exact except_discard_eq_ok.1 (by rwa [hkind] at h)
    | memory => exact except_discard_eq_ok.1 (by rwa [hkind] at h)
    | global => exact except_discard_eq_ok.1 (by rwa [hkind] at h)
    | table =>
      rw [hkind] at h
      cases h
  · rintro ⟨hname, h⟩
    refine ⟨(), hname, ?_⟩
    cases hkind : e.kind with
    | func => exact except_discard_eq_ok.2 (by rwa [hkind] at h)
    | memory => exact except_discard_eq_ok.2 (by rwa [hkind] at h)
    | global => exact except_discard_eq_ok.2 (by rwa [hkind] at h)
    | table =>
      rw [hkind] at h
      exact h.elim

theorem forM_eq_ok {α ε : Type} {f : α → Except ε Unit} {xs : List α} {u : Unit} :
    xs.forM f = .ok u ↔ ∀ x ∈ xs, f x = .ok () := by
  induction xs with
  | nil => exact ⟨(fun _ _ h => nomatch h), fun _ => rfl⟩
  | cons x xs ih =>
    show (f x >>= fun _ => xs.forM f) = _ ↔ _
    rw [except_bind_eq_ok, List.forall_mem_cons, ← ih]
    exact ⟨fun ⟨_, hx, hxs⟩ => ⟨hx, hxs⟩, fun ⟨hx, hxs⟩ => ⟨(), hx, hxs⟩⟩

/-- The index spaces are the declared ones, if the declarations are in order. -/
theorem ofModule_eq_ok : IndexSpaces.ofModule m = .ok s ↔
    DeclarationsOk m ∧ s = IndexSpaces.declared m := by
  unfold IndexSpaces.ofModule
  simp only [except_bind_eq_ok, foldlM_addImport_eq_ok, foldlM_addFunc_eq_ok,
    foldlM_addMemory_eq_ok, foldl_addGlobal]
  constructor
  · rintro ⟨_, ⟨himports, rfl⟩, _, ⟨hfuncs, rfl⟩, _, ⟨hmemories, rfl⟩, _, hexports, h⟩
    cases h
    have heq : ∀ {fs fs' ms ms' gs gs'}, ((({ types := m.types.toArray : IndexSpaces }.extend fs
        ms gs).extend fs' [] []).extend [] ms' []).extend [] [] gs' =
          { types := m.types.toArray : IndexSpaces }.extend (fs ++ fs') (ms ++ ms') (gs ++ gs') := by
      intros
      simp
    rw [heq] at hexports ⊢
    exact ⟨⟨himports, hfuncs, hmemories, forM_eq_ok.1 hexports⟩, rfl⟩
  · rintro ⟨⟨himports, hfuncs, hmemories, hexports⟩, rfl⟩
    refine ⟨_, ⟨himports, rfl⟩, _, ⟨hfuncs, rfl⟩, _, ⟨hmemories, rfl⟩, (), ?_, ?_⟩
    · refine forM_eq_ok.2 fun e he => ?_
      have hexport := hexports e he
      simp only [IndexSpaces.declared] at hexport
      simpa using hexport
    · simp [IndexSpaces.declared]
      rfl

end WasmPack.Compile
