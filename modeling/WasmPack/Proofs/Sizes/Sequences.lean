/-
  WasmPack.Proofs.Sizes.Sequences

  Which sequences leave the sizes of memories alone.

  All of them do but those that make a memory grow and what prepares a module.
  What appends pages without asking whether there is room is called in three
  places only: by itself, by a request for pages, and where a memory gets its
  first pages.  No other command names it, unless a module imports a function
  under a name that looks internal.
-/
import WasmPack.Proofs.Execution.Linked
import WasmPack.Proofs.Paging.Parts
import WasmPack.Proofs.Sizes.Steady

namespace WasmPack

open Compile Machine

/-! ## Names -/

/-- The operation appends pages whether or not there is room for them. -/
def MemoryOp.isUnchecked : MemoryOp → Bool
  | growUnchecked => true
  | growLoop => true
  | _ => false

/-- Other modules may not call it. -/
theorem MemoryOp.isUnchecked_of_mem_exported {op : MemoryOp} (h : op ∈ exported) :
    op.isUnchecked = false := by
  cases op <;> first | rfl | exact absurd h (by decide)

/-- The symbol does not stand for what appends pages unchecked, by its own name or by that of an
    import. -/
def Symbol.isSteady : Symbol → Bool
  | memory _ op => !op.isUnchecked
  | importFunc source =>
    decide (':' ∉ source.origin.toList ∧ ¬internalPrefix <+: source.member.toList)
  | importMemory source _ => decide (':' ∉ source.origin.toList)
  | importGlobal source _ => decide (':' ∉ source.origin.toList)
  | exportFunc _ => false
  | _ => true

namespace Symbol

variable {q : Symbol} {ns ns' : String} {i : UInt32} {op : MemoryOp}

theorem isSteady_memory (h : op ∈ MemoryOp.exported) : (memory i op).isSteady = true :=
  congrArg (!·) (MemoryOp.isUnchecked_of_mem_exported h)

/-- The names of other symbols of modules are not those of operations on memories. -/
theorem name_ne_memory (ho : q.IsOwn) (hns : ':' ∉ ns.toList) (hns' : ':' ∉ ns'.toList)
    (hne : q ≠ memory i op)
    (hfree : ∀ name, q = exportFunc name → ¬internalPrefix <+: name.toList) :
    q.qualifiedName ns ≠ (memory i op).qualifiedName ns' := by
  have hinternal : (memory i op).IsInternal := List.cons_ne_nil _ _
  have hown : (memory i op).IsOwn := trivial
  intro h
  have hq := ho.inNamespace ns
  rw [h] at hq
  obtain rfl := (hown.inNamespace ns').unique hq hns' hns
  by_cases hi : q.IsInternal
  · exact hne (internalName_inj hi hinternal h)
  · exact ne_internalName hinternal ho hi hfree ns' h.symm

/-- The names of steady symbols are not those of what appends pages unchecked. -/
theorem isSteady.name_ne (hq : q.isSteady = true) (hop : op.isUnchecked = true)
    (hns : ':' ∉ ns.toList) (hns' : checkNamespace ns' = .ok ()) :
    q.qualifiedName ns ≠ (memory i op).qualifiedName ns' := by
  obtain ⟨hshared, hcolon⟩ := checkNamespace_eq_ok hns'
  have hown : (memory i op).IsOwn := trivial
  -- What is in the shared namespace belongs to the library.
  have hlibrary : InNamespace sharedNamespace (q.qualifiedName ns) →
      q.qualifiedName ns ≠ (memory i op).qualifiedName ns' := by
    intro hq h
    rw [h] at hq
    exact hshared ((hown.inNamespace ns').unique hq hcolon (by decide))
  cases q with
  | memory j op' =>
    refine name_ne_memory trivial hns hcolon (fun h => ?_) fun _ h => nomatch h
    cases h
    have hnot : (!op.isUnchecked) = true := hq
    rw [hop] at hnot
    cases hnot
  | tree base lo hi =>
    cases base with
    | swapIn j => exact name_ne_memory trivial hns hcolon (fun h => nomatch h) fun _ h => nomatch h
    | swapOut j => exact name_ne_memory trivial hns hcolon (fun h => nomatch h) fun _ h => nomatch h
    | byteGet => exact hlibrary (IsShared.inNamespace (s := .tree .byteGet lo hi) trivial ns)
    | byteSet => exact hlibrary (IsShared.inNamespace (s := .tree .byteSet lo hi) trivial ns)
  | routine r => exact hlibrary (IsShared.inNamespace (s := .routine r) trivial ns)
  -- An import has the name of an export of its origin.
  | importFunc source =>
    obtain ⟨horigin, hmember⟩ := of_decide_eq_true hq
    refine @name_ne_memory (.exportFunc source.member) source.origin ns' i op trivial horigin hcolon
      (fun h => nomatch h) fun name h => ?_
    cases h
    exact hmember
  | importMemory source op' =>
    exact @name_ne_memory (.exportMemory source.member op') source.origin ns' i op trivial
      (of_decide_eq_true hq) hcolon (fun h => nomatch h) fun _ h => nomatch h
  | importGlobal source op' =>
    exact @name_ne_memory (.exportGlobal source.member op') source.origin ns' i op trivial
      (of_decide_eq_true hq) hcolon (fun h => nomatch h) fun _ h => nomatch h
  | exportFunc name => cases hq
  | _ => exact name_ne_memory trivial hns hcolon (fun h => nomatch h) fun _ h => nomatch h

end Symbol

/-- The name is that of what appends pages to a memory of a module unchecked. -/
def Part.Forces (parts : List Part) (name : String) : Prop :=
  ∃ ns m i, ∃ op : MemoryOp, .module ns m ∈ parts ∧ op.isUnchecked = true ∧
    name = (Symbol.memory i op).qualifiedName ns

theorem Part.Give.not_forces {parts : List Part} {ps : List Program} {q : Symbol} {ns : String}
    (hps : Part.Give parts ps) (hq : q.isSteady = true) (hns : ':' ∉ ns.toList) :
    ¬Part.Forces parts (q.qualifiedName ns) := by
  rintro ⟨ns', m, i, op, hm, hop, hname⟩
  obtain ⟨p, -, hp⟩ := hps.exists_program hm
  obtain ⟨c⟩ := exists_compiled hp
  exact Symbol.isSteady.name_ne hq hop hns c.namespaceOk hname

/-! ## Steady commands -/

/-- Calls of steady symbols, and of the tag that stores the window. -/
def Calls.steady : Calls := ⟨Symbol.isSteady, fun t => decide (t = .swapOut)⟩

/-- The command neither changes the sizes of memories nor names what does so unchecked. -/
def Command.isSteady (c : Command) : Bool := c.callsWithin .steady && !c.resizes

theorem Command.isSteady_call {q : Symbol} (h : q.isSteady = true) :
    (Command.call q).isSteady = true := Bool.and_eq_true_iff.2 ⟨h, rfl⟩

theorem Command.isSteady_guarded (c : Command) (g : Modifier) :
    (c.guarded g).isSteady = c.isSteady := by
  rw [isSteady, isSteady, callsWithin_guarded, resizes_guarded]

theorem Command.isSteady_of_isBasic {c : Command} (hc : c.isBasic = true) :
    c.isSteady = true := by
  have hwrites : Writes.operands.Among .besidesMems := by
    refine ⟨fun _ _ => rfl, fun k hk => decide_eq_true ?_⟩
    rintro rfl
    exact absurd hk (by decide)
  have hcalls : Calls.operations.Among .steady := by
    refine ⟨fun s hs => ?_, fun t ht => nomatch ht⟩
    cases s with
    | memory i op =>
      have hsteady : (Symbol.memory i op).isSteady = true :=
        Symbol.isSteady_memory (of_decide_eq_true hs)
      exact hsteady
    | _ => first | rfl | cases hs
  have hc' := staysIn_of_isBasic hc
  have hresizes := resizes_of_isWithin (isWithin_mono hwrites (isWithin_of_staysIn hc'))
  rw [isSteady, hresizes, Bool.not_false, Bool.and_true]
  exact callsWithin_mono hcalls (callsWithin_of_staysIn hc')

namespace Compile

open Wasm

variable {ns : String} {s : Sequence} {m : Module} {p : Program} {spaces : IndexSpaces}
  {cs : List Command} {i max : UInt32}

/-- All the commands are steady. -/
abbrev Steady : List Command → Prop := All Command.isSteady

/-! ## Code of the module -/

theorem steady_callSequence {target : Symbol} (h : target.isSteady = true) (params : Nat) :
    Steady (callSequence target params) := by
  have hcall := Command.isSteady_call h
  unfold callSequence
  simp only [all_append, all_cons]
  exact ⟨⟨⟨by decide, all_map fun j _ => rfl⟩, all_replicate rfl⟩, hcall, by decide⟩

theorem steady_forwardCall {target : Symbol} (h : target.isSteady = true) (params : Nat) :
    Steady (forwardCall target params) := by
  have hcall := Command.isSteady_call h
  unfold forwardCall
  simp only [all_append, all_cons]
  exact ⟨all_map fun j _ => rfl, hcall, all_nil⟩

theorem steady_of_basic (h : Basic cs) : Steady cs := h.mono fun _ => Command.isSteady_of_isBasic

theorem steady_of_isStraight {scope : Scope} (h : IsStraight scope cs) : Steady cs := by
  cases h with
  | call h => exact steady_callSequence rfl _
  | steps h =>
    intro c hc
    cases h c hc with
    | basic h => exact Command.isSteady_of_isBasic h
    | readLocal hi => rfl
    | writeLocal hi => rfl

/-- Steady commands, whatever the number of fragments. -/
def Vocabulary.steady : Vocabulary where
  Has _ c := c.isSteady = true
  grows _ h := h
  control h := by cases h <;> rfl
  fragment _ := rfl
  guarded _ hc := (Command.isSteady_guarded _ _).trans hc

/-- A module imports no function under a name that looks internal. -/
def NoInternalImports (m : Module) : Prop :=
  ∀ i ∈ m.imports, (∃ type, i.desc = .func type) → ¬internalPrefix <+: i.member.toList

/-- An imported function is what an import of a function names. -/
theorem exists_import_func {type : FuncType} {source : ExternalId}
    (h : .imported type source ∈ (IndexSpaces.declared m).funcs) :
    ∃ i ∈ m.imports, (∃ index, i.desc = .func index) ∧ source = ⟨i.origin, i.member⟩ := by
  rw [← Array.mem_toList_iff, funcs_declared] at h
  rcases List.mem_append.1 h with h | h
  · obtain ⟨i, hi, h⟩ := List.mem_filterMap.1 h
    unfold importedFunc? at h
    split at h
    · rename_i index hdesc
      obtain ⟨_, -, heq⟩ := Option.map_eq_some_iff.1 h
      cases heq
      exact ⟨i, hi, ⟨index, hdesc⟩, rfl⟩
    · cases h
  · obtain ⟨f, -, h⟩ := List.mem_filterMap.1 h
    obtain ⟨_, -, heq⟩ := Option.map_eq_some_iff.1 h
    cases heq

namespace Compiled

variable (c : Compiled ns m p) (hm : NoInternalImports m)

include hm

/-- What is put around code is steady as well. -/
theorem surrounds_steady : Vocabulary.steady.Surrounds c.spaces fun _ => true where
  covers _ _ _ _ _ _ h _ := steady_of_isStraight (isStraight_of_lowerStraight h)
  localRoom := rfl
  forward {n type source} hsource params := by
    have horigin := (originsOk_ofModule c.spacesOk).funcs type source hsource
    rw [(ofModule_eq_ok.1 c.spacesOk).2] at hsource
    obtain ⟨i, hi, hdesc, rfl⟩ := exists_import_func hsource
    have hsteady : (Symbol.importFunc ⟨i.origin, i.member⟩).isSteady = true :=
      decide_eq_true ⟨(checkNamespace_eq_ok horigin).2, hm i hi hdesc⟩
    exact steady_forwardCall hsteady params
  globalRoom := rfl
  setGlobal index := all_cons.2 ⟨rfl, all_cons.2 ⟨rfl, all_nil⟩⟩
  address := all_cons.2 ⟨rfl, all_cons.2 ⟨rfl, all_nil⟩⟩
  writeByte _ k byte := all_append.2
    ⟨steady_of_basic (basic_byteAddress k), all_cons.2 ⟨rfl, all_cons.2 ⟨rfl, all_nil⟩⟩⟩
  start _ := steady_callSequence rfl 0

/-- The code of functions, and what prepares a module behind its memories, is steady. -/
theorem lowered_steady : (∀ s ∈ c.functions, Steady s.commands) ∧
    (∃ rest, Steady rest ∧ c.init = initHead c.spaces ++ rest) ∧ ∀ cs ∈ c.pool, Steady cs := by
  obtain ⟨hf, hinit, hpool⟩ :=
    c.emitted (c.surrounds_steady hm) (liveCode_of_forall fun _ => rfl)
  exact ⟨fun s hs => (hf s hs).2, hinit, hpool⟩

end Compiled

/-! ## Memories -/

theorem steady_ownerCheck (i : UInt32) (r : Register) : Steady (ownerCheck ns i r) :=
  all_cons.2 ⟨rfl, all_cons.2 ⟨rfl, all_nil⟩⟩

theorem steady_swapIn : Steady (swapInCommands ns i max) := by
  unfold swapInCommands
  simp only [all_append, all_cons]
  exact ⟨⟨by decide, steady_ownerCheck i _⟩, by decide, by decide, by decide, by decide, rfl, rfl,
    by decide, all_nil⟩

/-- The operations of a memory with pages but those that make it grow. -/
theorem steady_pagedOperation {op : MemoryOp} (hgrow : op ≠ .grow) (hop : op.isUnchecked = false) :
    Steady (pagedOperation ns i max op) := by
  cases op with
  | grow => exact absurd rfl hgrow
  | growUnchecked => cases hop
  | growLoop => cases hop
  | swapIn => exact steady_swapIn
  | swapOut => exact all_cons.2 ⟨rfl, all_cons.2 ⟨rfl, all_nil⟩⟩
  | size => exact all_cons.2 ⟨rfl, all_cons.2 ⟨rfl, all_nil⟩⟩
  | _ =>
    intro c hc
    simp only [pagedOperation, accessCommands, List.mem_cons, List.not_mem_nil, or_false] at hc
    rcases hc with rfl | rfl | rfl | rfl | rfl | rfl | rfl | rfl <;> rfl

theorem steady_pageless (h : s ∈ pagelessSequences i) : Steady s.commands := by
  simp only [pagelessSequences, List.mem_cons, List.not_mem_nil, or_false] at h
  rcases h with rfl | rfl | rfl | rfl <;> exact of_decide_eq_true rfl

theorem steady_swapOutAll (memories : Array MemoryEntry) :
    Steady (swapOutAllCommands ns memories) := by
  refine all_flatMap fun ⟨entry, i⟩ _ => ?_
  simp only
  split
  · exact all_append.2 ⟨steady_ownerCheck _ _, all_cons.2 ⟨rfl, all_nil⟩⟩
  · exact all_nil

/-! ## Sequences of a module -/

namespace Compiled

variable (c : Compiled ns m p)

/-- A sequence of a module is steady, makes one of its memories grow, or prepares it. -/
inductive Resizing (c : Compiled ns m p) (s : Sequence) : Prop where
  | steady (h : Steady s.commands)
  | growing (i : Nat) (limits : Limits) (hi : c.spaces.memories[i]? = some (.defined limits))
      (hmax : effectiveMax limits ≠ 0) (op : MemoryOp) (hop : op = .grow ∨ op.isUnchecked = true)
      (hs : s = ⟨.memory (UInt32.ofNat i) op,
        pagedOperation ns (UInt32.ofNat i) (effectiveMax limits) op⟩)
  | init (rest : List Command) (h : Steady rest)
      (hs : s = ⟨.init, initHead c.spaces ++ rest⟩)

theorem resizing_memory {entry : MemoryEntry} {k : Nat} (hk : c.spaces.memories[k]? = some entry)
    (h : s ∈ memorySequences ns (UInt32.ofNat k) entry) : c.Resizing s := by
  cases entry with
  | imported source =>
    have horigin := (originsOk_ofModule c.spacesOk).memories source (Array.mem_of_getElem? hk)
    obtain ⟨op, -, rfl⟩ := List.mem_map.1 h
    have hcall : (Symbol.importMemory source op).isSteady = true :=
      decide_eq_true (checkNamespace_eq_ok horigin).2
    exact .steady (all_cons.2 ⟨Command.isSteady_call hcall, all_nil⟩)
  | defined limits =>
    simp only [memorySequences] at h
    split at h
    · exact .steady (steady_pageless h)
    · rename_i hmax
      rcases mem_paged h with h | h | ⟨op, rfl⟩
      · exact .steady (DispatchTree.forall_of_mem_sequences (fun _ _ => rfl) (fun _ _ _ => rfl) h)
      · exact .steady (DispatchTree.forall_of_mem_sequences (fun _ _ => rfl) (fun _ _ _ => rfl) h)
      · by_cases hop : op = .grow ∨ op.isUnchecked = true
        · exact .growing k limits hk hmax op hop rfl
        · rw [not_or, Bool.not_eq_true] at hop
          exact .steady (steady_pagedOperation hop.1 hop.2)

theorem steady_globals (h : s ∈ allGlobalSequences c.spaces) : Steady s.commands := by
  obtain ⟨⟨entry, i⟩, hi, h⟩ := List.mem_flatMap.1 h
  rw [List.mem_zipIdx_iff_getElem?] at hi
  cases entry with
  | defined type init =>
    rcases List.mem_cons.1 h with rfl | h
    · exact all_cons.2 ⟨rfl, all_nil⟩
    · rw [List.mem_singleton.1 h]
      exact all_cons.2 ⟨rfl, all_cons.2 ⟨rfl, all_nil⟩⟩
  | imported type source =>
    have horigin := (originsOk_ofModule c.spacesOk).globals type source
      (Array.mem_toList_iff.1 (List.mem_of_getElem? hi))
    obtain ⟨op, -, rfl⟩ := List.mem_map.1 h
    have hcall : (Symbol.importGlobal source op).isSteady = true :=
      decide_eq_true (checkNamespace_eq_ok horigin).2
    exact all_cons.2 ⟨Command.isSteady_call hcall, all_nil⟩

theorem steady_exports (h : s ∈ exportSequences c.spaces m) : Steady s.commands := by
  rcases List.mem_append.1 h with h | h
  · rcases List.mem_append.1 h with h | h
    · obtain ⟨e, -, h⟩ := List.mem_flatMap.1 h
      rw [List.mem_singleton.1 h]
      exact steady_callSequence rfl _
    · obtain ⟨e, -, h⟩ := List.mem_flatMap.1 h
      obtain ⟨op, hop, rfl⟩ := List.mem_map.1 h
      exact all_cons.2 ⟨Command.isSteady_call (Symbol.isSteady_memory hop), all_nil⟩
  · obtain ⟨e, -, h⟩ := List.mem_flatMap.1 h
    obtain ⟨op, -, rfl⟩ := List.mem_map.1 h
    exact all_cons.2 ⟨rfl, all_nil⟩

/-- Every sequence is of one of these kinds. -/
theorem resizing (hm : NoInternalImports m) (h : s ∈ p.sequences) : c.Resizing s := by
  obtain ⟨hf, ⟨rest, hrest, hinit⟩, hpool⟩ := c.lowered_steady hm
  rw [c.program] at h
  simp only [List.mem_append, List.mem_singleton] at h
  rcases h with (((((h | h) | h) | h) | h) | h) | h
  · exact .steady (hf s h)
  · obtain ⟨⟨entry, k⟩, hk, h⟩ := List.mem_flatMap.1 h
    rw [List.mem_zipIdx_iff_getElem?] at hk
    exact c.resizing_memory (by simpa using hk) h
  · rw [mem_swapOutSequences h]
    exact .steady (steady_swapOutAll _)
  · exact .steady (c.steady_globals h)
  · exact .steady (c.steady_exports h)
  · obtain ⟨⟨cs, k⟩, hk, rfl⟩ := List.mem_map.1 h
    rw [List.mem_zipIdx_iff_getElem?] at hk
    exact .steady (hpool cs (Array.mem_toList_iff.1 (List.mem_of_getElem? hk)))
  · exact .init rest hrest (by rw [h, hinit])

end Compiled

/-! ## The library -/

theorem steady_library (h : s ∈ Library.program.sequences) : Steady s.commands := by
  rcases List.mem_append.1 h with h | h
  · obtain ⟨r, -, rfl⟩ := List.mem_map.1 h
    cases r <;> decide
  · rcases List.mem_append.1 h with h | h
    · exact DispatchTree.forall_of_mem_sequences (fun _ _ => rfl) (fun _ _ _ => rfl) h
    · exact DispatchTree.forall_of_mem_sequences (fun _ _ => rfl) (fun _ _ _ => rfl) h

end Compile

end WasmPack
