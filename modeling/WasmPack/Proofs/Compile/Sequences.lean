/-
  WasmPack.Proofs.Compile.Sequences

  The sequences of a compiled module, kind by kind.
-/
import WasmPack.Proofs.Compile.Coverage
import WasmPack.Proofs.Compile.Ordinary

namespace WasmPack.Compile

open Wasm

variable {ns : String} {m : Module} {p : Program} {s : Sequence} {spaces : IndexSpaces}

/-! ## Code of the module -/

/-- The sequence of a function, with ordinary commands. -/
def IsFunction (s : Sequence) : Prop := (∃ i, s.symbol = .func i) ∧ Ordinary s.commands

theorem ordinary_setGlobal (index : UInt32) : Ordinary (setGlobal index) :=
  all_cons.2 ⟨rfl, all_cons.2 ⟨rfl, all_nil⟩⟩

theorem ordinary_writeByte (memory : UInt32) (k : Nat) (byte : UInt8) :
    Ordinary (writeByte memory k byte) :=
  all_append.2 ⟨ordinary_of_basic (basic_byteAddress k), all_cons.2 ⟨rfl, all_cons.2 ⟨rfl,
    all_nil⟩⟩⟩

/-- What is put around code is ordinary as well. -/
theorem surrounds_ordinary (spaces : IndexSpaces) :
    Vocabulary.ordinary.Surrounds spaces fun _ => true where
  covers _ := covers_ordinary _
  localRoom := rfl
  forward _ := ordinary_forwardCall rfl
  globalRoom := rfl
  setGlobal := ordinary_setGlobal
  address := all_cons.2 ⟨rfl, all_cons.2 ⟨rfl, all_nil⟩⟩
  writeByte _ := ordinary_writeByte _
  start _ := ordinary_callSequence rfl 0

/-! ## Globals and exports -/

/-- The sequence belongs to a global or an export, and its commands are ordinary. -/
def IsPublic (s : Sequence) : Prop :=
  ((∃ i op, s.symbol = .global i op) ∨ (∃ name, s.symbol = .exportFunc name) ∨
    (∃ name op, s.symbol = .exportMemory name op) ∨ ∃ name op, s.symbol = .exportGlobal name op) ∧
    Ordinary s.commands

theorem isPublic_of_mem_globals (h : s ∈ allGlobalSequences spaces) : IsPublic s := by
  obtain ⟨⟨entry, i⟩, -, h⟩ := List.mem_flatMap.1 h
  cases entry with
  | defined type init =>
    obtain rfl | h := List.mem_cons.1 h
    · exact ⟨.inl ⟨_, _, rfl⟩, all_cons.2 ⟨rfl, all_nil⟩⟩
    · rw [List.mem_singleton.1 h]
      exact ⟨.inl ⟨_, _, rfl⟩, ordinary_setGlobal _⟩
  | imported type source =>
    obtain ⟨op, -, rfl⟩ := List.mem_map.1 h
    exact ⟨.inl ⟨_, _, rfl⟩, all_cons.2 ⟨rfl, all_nil⟩⟩

theorem isPublic_of_mem_exports (h : s ∈ exportSequences spaces m) : IsPublic s := by
  obtain h | h := List.mem_append.1 h
  · obtain h | h := List.mem_append.1 h
    · obtain ⟨e, -, h⟩ := List.mem_flatMap.1 h
      rw [List.mem_singleton.1 h]
      exact ⟨.inr (.inl ⟨_, rfl⟩), ordinary_callSequence rfl _⟩
    · obtain ⟨e, -, h⟩ := List.mem_flatMap.1 h
      obtain ⟨op, hop, rfl⟩ := List.mem_map.1 h
      have hcall : (Command.call (.memory e.index op)).isOrdinary = true :=
        Command.isOrdinary_call (decide_eq_true hop)
      exact ⟨.inr (.inr (.inl ⟨_, _, rfl⟩)), all_cons.2 ⟨hcall, all_nil⟩⟩
  · obtain ⟨e, -, h⟩ := List.mem_flatMap.1 h
    obtain ⟨op, -, rfl⟩ := List.mem_map.1 h
    exact ⟨.inr (.inr (.inr ⟨_, _, rfl⟩)), all_cons.2 ⟨rfl, all_nil⟩⟩

/-! ## All sequences -/

/-- A sequence of a module: of a function, of a memory, the one that stores the window, of a
    global, of an export, a fragment, or the one that prepares the module. -/
inductive Compiled.Kind (c : Compiled ns m p) (s : Sequence) : Prop where
  | function (h : IsFunction s) (hmem : s ∈ c.functions)
  | memory (entry : MemoryEntry) (i : Nat) (hi : c.spaces.memories[i]? = some entry)
      (h : s ∈ memorySequences ns (UInt32.ofNat i) entry)
  | swapOutAll (h : s = ⟨.swapOutAll, swapOutAllCommands ns c.spaces.memories⟩)
  | global (h : s ∈ allGlobalSequences c.spaces)
  | exported (h : s ∈ exportSequences c.spaces m)
  | fragment (i : UInt32) (hs : s.symbol = .fragment i) (h : Ordinary s.commands)
  | init (rest : List Command) (h : Ordinary rest) (hinit : c.init = initHead c.spaces ++ rest)
      (hs : s = ⟨.init, c.init⟩)

namespace Compiled

variable (c : Compiled ns m p)

theorem lowered_ordinary : (∀ s ∈ c.functions, IsFunction s) ∧
    (∃ rest, Ordinary rest ∧ c.init = initHead c.spaces ++ rest) ∧
    ∀ cs ∈ c.pool, Ordinary cs :=
  c.emitted (surrounds_ordinary _) (liveCode_of_forall fun _ => rfl)

theorem mem_swapOutSequences (h : s ∈ swapOutSequences ns spaces) :
    s = ⟨.swapOutAll, swapOutAllCommands ns spaces.memories⟩ := by
  unfold swapOutSequences at h
  split at h
  · cases h
  · rename_i hne
    exact List.mem_singleton.1 h

/-- Every sequence is of one of the kinds. -/
theorem kind (h : s ∈ p.sequences) : c.Kind s := by
  obtain ⟨hf, ⟨rest, hrest, hinit⟩, hpool⟩ := c.lowered_ordinary
  rw [c.program] at h
  simp only [List.mem_append, List.mem_singleton] at h
  obtain (((((h | h) | h) | h) | h) | h) | h := h
  · exact .function (hf s h) h
  · obtain ⟨⟨entry, i⟩, hmem, h⟩ := List.mem_flatMap.1 h
    refine .memory entry i ?_ h
    rw [List.mem_zipIdx_iff_getElem?] at hmem
    simpa using hmem
  · exact .swapOutAll (mem_swapOutSequences h)
  · exact .global h
  · exact .exported h
  · obtain ⟨⟨cs, i⟩, hmem, rfl⟩ := List.mem_map.1 h
    refine .fragment _ rfl (hpool cs ?_)
    rw [List.mem_zipIdx_iff_getElem?] at hmem
    exact Array.mem_toList_iff.1 (List.mem_of_getElem? hmem)
  · exact .init rest hrest hinit h

end Compiled

end WasmPack.Compile
