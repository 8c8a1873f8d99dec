/-
  WasmPack.Proofs.Closed.Module

  Compiled modules are closed: whatever the commands of a module call is there,
  and so are the constants they read.  Calls are produced in many places, and
  the sequences they call are emitted elsewhere, under conditions of their own;
  each lemma here meets a call with the sequence it means.
-/
import WasmPack.Proofs.Closed.Known
import WasmPack.Proofs.Compile.Coverage
import WasmPack.Proofs.Compile.Functions
import WasmPack.Proofs.Compile.Spaces
import WasmPack.Proofs.Execution.Library

namespace WasmPack

open Wasm

theorem Library.mem_routine (r : Routine) :
    ⟨.routine r, routineCommands r⟩ ∈ program.sequences := by
  have hlisted : r ∈ listing := by cases r <;> decide
  exact List.mem_append_left _ (List.mem_map.2 ⟨r, hlisted, rfl⟩)

namespace Compile

variable {ns : String} {m : Module} {n : Nat} {cs : List Command} {i : UInt32} {s : Sequence}

/-! ## What indices mean is there -/

theorem callable_func {entry : FuncEntry} (h : (IndexSpaces.declared m).funcAt i = .ok entry) :
    Callable ns m n (.func i) := by
  have hi := (Array.getElem?_eq_some_iff.1 (entryAt_eq_ok.1 h)).1
  have hcall : Callable ns m n (.func (UInt32.ofNat i.toNat)) := .func hi
  rwa [UInt32.ofNat_toNat] at hcall

theorem mem_pagedSequences {max : UInt32} (op : MemoryOp) :
    ⟨.memory i op, pagedOperation ns i max op⟩ ∈ pagedSequences ns i max :=
  List.mem_append_right _ (by cases op <;> simp [pagedOperation])

theorem mem_pagelessSequences {op : MemoryOp} (hop : op ∈ MemoryOp.exported) :
    ⟨.memory i op, pagelessOperation op⟩ ∈ pagelessSequences i := by
  simp only [MemoryOp.exported, List.mem_cons, List.not_mem_nil, or_false] at hop
  rcases hop with rfl | rfl | rfl | rfl <;> simp [pagelessSequences, pagelessOperation]

/-- Every memory has the operations that other modules may call. -/
theorem exists_memory_op (entry : MemoryEntry) {op : MemoryOp} (hop : op ∈ MemoryOp.exported) :
    ∃ s ∈ memorySequences ns i entry, s.symbol = .memory i op := by
  cases entry with
  | imported source => exact ⟨⟨.memory i op, _⟩, List.mem_map.2 ⟨op, hop, rfl⟩, rfl⟩
  | defined limits =>
    simp only [memorySequences]
    split
    · exact ⟨_, mem_pagelessSequences hop, rfl⟩
    · exact ⟨_, mem_pagedSequences op, rfl⟩

theorem mem_zipIdx_of_entryAt {α : Type} {kind : IndexKind} {entries : Array α} {entry : α}
    (h : entryAt kind entries i = .ok entry) : (entry, i.toNat) ∈ entries.toList.zipIdx := by
  rw [List.mem_zipIdx_iff_getElem?, Array.getElem?_toList]
  exact entryAt_eq_ok.1 h

theorem callable_memory {entry : MemoryEntry} {op : MemoryOp}
    (h : (IndexSpaces.declared m).memoryAt i = .ok entry) (hop : op ∈ MemoryOp.exported) :
    Callable ns m n (.memory i op) := by
  obtain ⟨s, hs, hsymbol⟩ : ∃ s ∈ memorySequences ns i entry, s.symbol = .memory i op :=
    exists_memory_op entry hop
  rw [← hsymbol]
  refine .memory (List.mem_flatMap.2 ⟨_, mem_zipIdx_of_entryAt h, ?_⟩)
  show s ∈ memorySequences ns (UInt32.ofNat i.toNat) entry
  rwa [UInt32.ofNat_toNat]

/-- An operation that the global has: one that is imported has only those of its type. -/
def GlobalEntry.HasOp : GlobalEntry → GlobalOp → Prop
  | .defined _ _, _ => True
  | .imported type _, op => op ∈ globalOps type

theorem callable_global {entry : GlobalEntry} {op : GlobalOp}
    (h : (IndexSpaces.declared m).globalAt i = .ok entry) (hop : entry.HasOp op) :
    Callable ns m n (.global i op) := by
  obtain ⟨s, hs, hsymbol⟩ : ∃ s ∈ globalSequences i entry, s.symbol = .global i op := by
    cases entry with
    | defined type init => cases op <;> simp [globalSequences]
    | imported type source => exact ⟨⟨.global i op, _⟩, List.mem_map.2 ⟨op, hop, rfl⟩, rfl⟩
  rw [← hsymbol]
  refine .global (List.mem_flatMap.2 ⟨_, mem_zipIdx_of_entryAt h, ?_⟩)
  show s ∈ globalSequences (UInt32.ofNat i.toNat) entry
  rwa [UInt32.ofNat_toNat]

theorem hasOp_get (entry : GlobalEntry) : entry.HasOp .get := by
  cases entry with
  | defined type init => trivial
  | imported type source =>
    show _ ∈ globalOps type
    unfold globalOps
    split <;> exact List.mem_cons_self

/-- The types of imported globals are those of the first entries. -/
theorem importedGlobals_getElem? {k : Nat} {type : GlobalType} {source : ExternalId}
    (h : (IndexSpaces.declared m).globals[k]? = some (.imported type source)) :
    m.importedGlobals[k]? = some type := by
  have himported : m.importedGlobals =
      (m.imports.filterMap importedGlobal?).map GlobalEntry.type := by
    unfold Module.importedGlobals
    rw [List.map_filterMap]
    refine List.filterMap_congr fun i _ => ?_
    unfold importedGlobal?
    cases i.desc <;> rfl
  rw [← Array.getElem?_toList, globals_declared, List.getElem?_append] at h
  split at h
  · rw [himported, List.getElem?_map, h]
    rfl
  · -- Behind the imported globals stand those that the module defines.
    obtain ⟨g, -, hg⟩ := List.mem_map.1 (List.mem_of_getElem? h)
    cases hg

theorem hasOp_set {entry : GlobalEntry} (h : (IndexSpaces.declared m).globalAt i = .ok entry)
    (hlive : m.setsFrozen (.globalSet i) = false) : entry.HasOp .set := by
  cases entry with
  | defined type init => trivial
  | imported type source =>
    have htype := importedGlobals_getElem? (entryAt_eq_ok.1 h)
    rw [Module.setsFrozen, htype] at hlive
    show _ ∈ globalOps type
    rw [globalOps, if_pos (by simpa using hlive)]
    exact List.mem_cons_of_mem _ List.mem_cons_self

/-! ## Code of functions -/

section Code

open Vocabulary

variable {c : Command}

theorem known_call {f : Symbol} (h : Callable ns m n f) : AllKnown ns m n [.call f] :=
  hasAll_cons.2 ⟨.call h, hasAll_nil⟩

theorem allKnown_callSequence {f : Symbol} (h : Callable ns m n f) (params : Nat) :
    AllKnown ns m n (callSequence f params) := by
  have hframe : AllKnown ns m n [.remove .frame, .setScore .brDepth noBranch] :=
    allKnown_of_silent (by decide)
  have harguments : AllKnown ns m n ((List.range params).map (moveArgument params)) :=
    allKnown_of_silent (all_map fun _ _ => rfl)
  have hdrops : AllKnown ns m n (List.replicate params .dropOperand) :=
    allKnown_of_silent (all_replicate rfl)
  have hopen : AllKnown ns m n [.append .frames .emptyList] := allKnown_of_silent (by decide)
  exact hasAll_append.2 ⟨hasAll_append.2 ⟨hasAll_append.2 ⟨hopen, harguments⟩, hdrops⟩,
    hasAll_append.2 ⟨known_call h, hframe⟩⟩

theorem allKnown_forwardCall {f : Symbol} (h : Callable ns m n f) (params : Nat) :
    AllKnown ns m n (forwardCall f params) :=
  hasAll_append.2 ⟨allKnown_of_silent (all_map fun _ _ => rfl), known_call h⟩

/-! ## Instructions without branches -/

/-- Numeric operators call routines only. -/
theorem allKnown_of_lowerNumeric {op : NumericOp} {lowered : Lowered}
    (h : lowerNumeric op = .ok lowered) : AllKnown ns m n lowered.commands := by
  have hall : ∀ lowered ∈ supportedNumeric, All Command.callsRoutines lowered.commands := by decide
  exact fun c hc => .of_callsRoutines (hall lowered (mem_supportedNumeric h) c hc)

theorem silent_byteAddress (k : Nat) : All Command.isSilent (byteAddress k) := by
  unfold byteAddress
  split
  · decide
  · exact all_cons.2 ⟨rfl, all_cons.2 ⟨rfl, all_nil⟩⟩

theorem silent_loadAddress (arg : MemArg) : All Command.isSilent (loadAddress arg) := by
  unfold loadAddress
  split
  · decide
  · exact all_cons.2 ⟨rfl, all_cons.2 ⟨rfl, all_nil⟩⟩

/-- The weights of the bytes of a number are seeded. -/
theorem silent_mul_byteWeight {k : Nat} (hk : k < 4) (hk0 : k ≠ 0) :
    (Command.operation .a .mul (.const (byteWeight k))).isSilent = true := by
  obtain rfl | rfl | rfl : k = 1 ∨ k = 2 ∨ k = 3 := by omega
  all_goals decide

variable (hget : Callable ns m n (.memory 0 .get)) (hset : Callable ns m n (.memory 0 .set))

include hget in
theorem allKnown_loadByte {width k : Nat} {sign : Signedness} (hk : k < 4) :
    AllKnown ns m n (loadByte width sign k) := by
  unfold loadByte
  simp only [hasAll_append]
  refine ⟨⟨⟨allKnown_of_silent (silent_byteAddress k), known_call hget⟩, ?_⟩, ?_⟩
  · split <;> exact allKnown_of_silent (by decide)
  · split
    · exact allKnown_of_silent (by decide)
    · rename_i hk0
      exact allKnown_of_silent (all_cons.2 ⟨silent_mul_byteWeight hk hk0, by decide⟩)

include hget in
theorem allKnown_of_lowerLoad {op : LoadOp} {arg : MemArg} (h : lowerLoad op arg = .ok cs) :
    AllKnown ns m n cs := by
  unfold lowerLoad at h
  split at h
  · rename_i width sign hshape
    have hwidth : width ≤ 4 := by
      unfold loadShape? at hshape
      split at hshape <;> cases hshape <;> decide
    cases h
    simp only [hasAll_append]
    refine ⟨⟨allKnown_of_silent (silent_loadAddress arg), fun c hc => ?_⟩,
      allKnown_of_silent (by decide)⟩
    obtain ⟨k, hk, hc⟩ := List.mem_flatMap.1 hc
    have hk := List.mem_range.1 hk
    exact allKnown_loadByte hget (by omega) c hc
  · cases h

include hset in
theorem allKnown_storeByte (width k : Nat) : AllKnown ns m n (storeByte width k) := by
  have hcopy : AllKnown ns m n [.copy .a .d, .operation .a .mod (.const 256)] :=
    allKnown_of_silent (by decide)
  unfold storeByte
  refine hasAll_append.2 ⟨hasAll_append.2 ⟨allKnown_of_silent (silent_byteAddress k),
    hasAll_append.2 ⟨hcopy, known_call hset⟩⟩, ?_⟩
  split <;> exact allKnown_of_silent (by decide)

include hset in
theorem allKnown_of_lowerStore {op : StoreOp} {arg : MemArg} (h : lowerStore op arg = .ok cs) :
    AllKnown ns m n cs := by
  unfold lowerStore at h
  split at h
  · cases h
    simp only [hasAll_append]
    refine ⟨⟨⟨allKnown_of_silent (by decide), allKnown_of_silent (silent_loadAddress arg)⟩,
      allKnown_of_silent (by decide)⟩, fun c hc => ?_⟩
    obtain ⟨k, -, hc⟩ := List.mem_flatMap.1 hc
    exact allKnown_storeByte hset _ k c hc
  · cases h

end Code

section Live

open Vocabulary

/-- The code of functions stays within what is known. -/
theorem covers_known (ns : String) (m : Module) (locals : Nat) :
    (known ns m).Covers ⟨IndexSpaces.declared m, locals⟩ fun i => !m.setsFrozen i := by
  intro height height' i cs hlive h n
  have hmemory : ∀ {j entry op}, (IndexSpaces.declared m).memoryAt j = .ok entry →
      op ∈ MemoryOp.exported → AllKnown ns m n [.call (.memory j op)] :=
    fun hj hop => known_call (callable_memory hj hop)
  cases lowerStraight_eq_ok.1 h with
  | nop => exact hasAll_nil
  | call hf => exact allKnown_callSequence (callable_func hf) _
  | drop | select => exact allKnown_of_silent (by decide)
  | localGet | localTee | i32Const => exact allKnown_of_silent (all_cons.2 ⟨rfl, all_nil⟩)
  | localSet => exact allKnown_of_silent (all_cons.2 ⟨rfl, all_cons.2 ⟨rfl, all_nil⟩⟩)
  | @globalGet _ _ entry hg => exact known_call (callable_global hg (hasOp_get entry))
  -- A frozen global has no operation that sets it, and code that is generated asks for none.
  | globalSet hg => exact known_call (callable_global hg (hasOp_set hg (by simpa using hlive)))
  | load hm hbase hload => exact allKnown_of_lowerLoad (callable_memory hm (by decide)) hload
  | store hm hbase hstore => exact allKnown_of_lowerStore (callable_memory hm (by decide)) hstore
  | memorySize hm | memoryGrow hm => exact hmemory hm (by decide)
  | numeric hop => exact allKnown_of_lowerNumeric hop

/-- Where the declarations put the code of functions, there is code of the module. -/
theorem mem_code_of_func {type : FuncType} {locals : List ValueType} {body : Expr}
    (h : .defined type locals body ∈ (IndexSpaces.declared m).funcs) : body ∈ m.code := by
  rw [← Array.mem_toList_iff, funcs_declared] at h
  obtain h | h := List.mem_append.1 h
  · obtain ⟨i, -, hi⟩ := List.mem_filterMap.1 h
    unfold importedFunc? at hi
    split at hi
    · obtain ⟨type', -, heq⟩ := Option.map_eq_some_iff.1 hi
      cases heq
    · cases hi
  · obtain ⟨f, hf, h⟩ := List.mem_filterMap.1 h
    obtain ⟨type', -, heq⟩ := Option.map_eq_some_iff.1 h
    cases heq
    exact List.mem_append_left _ (List.mem_append_left _ (List.mem_map.2 ⟨f, hf, rfl⟩))

theorem mem_code_of_global {type : GlobalType} {init : Expr}
    (h : .defined type init ∈ (IndexSpaces.declared m).globals) : init ∈ m.code := by
  rw [← Array.mem_toList_iff, globals_declared] at h
  obtain h | h := List.mem_append.1 h
  · obtain ⟨i, -, hi⟩ := List.mem_filterMap.1 h
    unfold importedGlobal? at hi
    split at hi <;> cases hi
  · obtain ⟨g, hg, heq⟩ := List.mem_map.1 h
    cases heq
    exact List.mem_append_left _ (List.mem_append_right _ (List.mem_map.2 ⟨g, hg, rfl⟩))

/-- An imported function is one that the module declares. -/
theorem declares_of_func {type : FuncType} {source : ExternalId}
    (h : .imported type source ∈ (IndexSpaces.declared m).funcs) :
    m.Declares (.importFunc source) := by
  rw [← Array.mem_toList_iff, funcs_declared] at h
  obtain h | h := List.mem_append.1 h
  · obtain ⟨i, hi, h⟩ := List.mem_filterMap.1 h
    unfold importedFunc? at h
    split at h
    · rename_i index hdesc
      obtain ⟨type', -, heq⟩ := Option.map_eq_some_iff.1 h
      cases heq
      exact .func hi hdesc
    · cases h
  · obtain ⟨f, -, h⟩ := List.mem_filterMap.1 h
    obtain ⟨type', -, heq⟩ := Option.map_eq_some_iff.1 h
    cases heq

theorem allKnown_writeByte {memory : UInt32} (h : Callable ns m n (.memory memory .set)) (k : Nat)
    (byte : UInt8) : AllKnown ns m n (writeByte memory k byte) :=
  hasAll_append.2 ⟨allKnown_of_silent (silent_byteAddress k),
    hasAll_cons.2 ⟨.of_isSilent rfl, known_call h⟩⟩

/-- What is put around code is known. -/
theorem surrounds_known (ns : String) (m : Module) :
    (known ns m).Surrounds (IndexSpaces.declared m) fun i => !m.setsFrozen i where
  covers locals := covers_known ns m locals
  localRoom := .of_isSilent rfl
  forward hentry params := allKnown_forwardCall (.imported (declares_of_func hentry)) params
  globalRoom := .of_isSilent (by decide)
  setGlobal index := allKnown_of_silent (all_cons.2 ⟨rfl, all_cons.2 ⟨rfl, all_nil⟩⟩)
  address := allKnown_of_silent (by decide)
  writeByte hentry k byte := allKnown_writeByte (callable_memory hentry (by decide)) k byte
  start hentry := allKnown_callSequence (callable_func hentry) 0

/-- Live code of the module is live where it is compiled. -/
theorem liveCode_of_allLive {P : Instr → Bool} (h : m.allLive P = true) :
    LiveCode (IndexSpaces.declared m) m P := by
  have hcode : ∀ body ∈ m.code, Instr.allLive P body = true := List.all_eq_true.1 h
  exact ⟨fun hentry => hcode _ (mem_code_of_func hentry),
    fun hentry => hcode _ (mem_code_of_global hentry),
    fun hsegment => hcode _ (List.mem_append_right _ (List.mem_map.2 ⟨_, hsegment, rfl⟩))⟩

end Live

/-! ## Memories -/

section Memories

open Vocabulary

variable (hns : PlainText ns)

/-- A tree calls its own nodes. -/
theorem allKnown_tree {t : DispatchTree} {leaf : Nat → Command} {span : Span}
    (hkey : t.key = .index) (hleaf : ∀ key, (leaf key).isSilent = true)
    (hcall : ∀ r ∈ t.sequences leaf span, Callable ns m n r.symbol)
    (h : s ∈ t.sequences leaf span) : AllKnown ns m n s.commands := by
  have hguard : ∀ range, (Modifier.ifIn t.key range).registers.all Register.isAtHand = true := by
    rw [hkey]
    exact fun _ => rfl
  refine DispatchTree.forall_of_mem_sequences (fun key range => ?_) (fun part range hr => ?_) h
  · exact (Known.of_isSilent (hleaf key)).guarded (hguard range) rfl
  · obtain ⟨r, hr, hsymbol⟩ := hr
    exact (Known.call (hsymbol ▸ hcall r hr)).guarded (hguard range) rfl

include hns in
theorem silent_ownerId {i : UInt32} {path : Path} (hpath : path.isPlain = true) :
    (Command.setData path (ownerId ns i)).isSilent = true := by
  have hmark : (ownerId ns i).isPlain = true :=
    decide_eq_true ((hns.append (by decide)).append (plainText_nat _))
  simp [Command.isSilent, Command.isLegible, Command.registers, Command.paths, Command.values,
    Command.callees, Command.calledTags, hpath, hmark]

include hns in
theorem allKnown_ownerCheck {r : Register} (hr : r.isAtHand = true) (i : UInt32) :
    AllKnown ns m n (ownerCheck ns i r) := by
  have hstore : (Modifier.store .success (.score r)).registers.all Register.isAtHand = true := by
    simp [Modifier.registers, StoreTarget.registers, hr]
  have hmark : Known ns m n (.setData scratch (ownerId ns i)) :=
    .of_isSilent (silent_ownerId hns rfl)
  exact hasAll_cons.2 ⟨.of_isSilent rfl, hasAll_cons.2 ⟨hmark.guarded hstore rfl, hasAll_nil⟩⟩

theorem known_onFault {c : Command} (h : Known ns m n c) : Known ns m n (onFault c) :=
  h.guarded rfl rfl

section Paged

variable {max : UInt32}
  (hseq : ∀ r ∈ pagedSequences ns i max, Callable ns m n r.symbol)

include hseq in
theorem callable_op (op : MemoryOp) : Callable ns m n (.memory i op) :=
  hseq _ (mem_pagedSequences op)

include hns hseq in
theorem allKnown_swapIn (hswap : swapOutSequences ns (IndexSpaces.declared m) ≠ []) :
    AllKnown ns m n (swapInCommands ns i max) := by
  have hroot : Callable ns m n ((swapInTree i).symbol (pageSpan max)) :=
    hseq ⟨_, _⟩ (List.mem_append_left _ (List.mem_append_left _
      (List.mem_append_right _ List.mem_cons_self)))
  have htag : Known ns m n (.callTag .swapOut) :=
    ⟨rfl, fun _ hf => (nomatch hf), fun tag htag => ⟨List.mem_singleton.1 htag, hswap⟩⟩
  have hmark : Known ns m n (.setData windowId (ownerId ns i)) :=
    .of_isSilent (silent_ownerId hns rfl)
  unfold swapInCommands
  simp only [hasAll_append, hasAll_cons]
  exact ⟨⟨⟨.of_isSilent rfl, hasAll_nil⟩, allKnown_ownerCheck hns rfl i⟩, .of_isSilent rfl,
    .of_isSilent rfl, known_onFault htag, known_onFault (.of_isSilent rfl),
    known_onFault (.call hroot), known_onFault hmark, known_onFault (.of_isSilent rfl), hasAll_nil⟩

include hns hseq in
/-- The sequences of a memory that may have pages call each other. -/
theorem allKnown_paged (hswap : swapOutSequences ns (IndexSpaces.declared m) ≠ [])
    (h : s ∈ pagedSequences ns i max) : AllKnown ns m n s.commands := by
  -- The leaves of the two trees move a page and call nothing; the inner nodes call their halves.
  have hin : ∀ r ∈ (swapInTree i).sequences (fun page => .setFrom windowData (pagePath i page))
      (pageSpan max), Callable ns m n r.symbol := fun r hr =>
    hseq r (List.mem_append_left _ (List.mem_append_left _ hr))
  have hout : ∀ r ∈ (swapOutTree i).sequences (fun page => .setFrom (pagePath i page) windowData)
      (pageSpan max), Callable ns m n r.symbol := fun r hr =>
    hseq r (List.mem_append_left _ (List.mem_append_right _ hr))
  obtain h | h | ⟨op, rfl⟩ := mem_paged h
  · exact allKnown_tree rfl (fun _ => rfl) hin h
  · exact allKnown_tree rfl (fun _ => rfl) hout h
  have haccess : ∀ r, AllKnown ns m n (accessCommands i r) := fun r => by
    unfold accessCommands
    simp only [hasAll_cons]
    exact ⟨.of_isSilent rfl, .of_isSilent rfl, .of_isSilent rfl, .of_isSilent rfl,
      .call (callable_op hseq _), .of_isSilent rfl, .of_isSilent rfl, .call (.routine r), hasAll_nil⟩
  cases op with
  | swapIn => exact allKnown_swapIn hns hseq hswap
  | swapOut =>
    have hroot : Callable ns m n ((swapOutTree i).symbol (pageSpan max)) :=
      hout ⟨_, _⟩ (List.mem_append_right _ List.mem_cons_self)
    exact hasAll_cons.2 ⟨.of_isSilent rfl, known_call hroot⟩
  | get => exact haccess _
  | set => exact haccess _
  | size => exact allKnown_of_silent (all_cons.2 ⟨rfl, all_cons.2 ⟨rfl, all_nil⟩⟩)
  | grow =>
    show AllKnown ns m n (growCommands i max)
    unfold growCommands
    simp only [hasAll_cons]
    exact ⟨.of_isSilent rfl, .of_isSilent rfl, .of_isSilent rfl, .of_isSilent rfl,
      .of_isSilent rfl, .of_isSilent rfl, .of_isSilent rfl, .of_isSilent rfl,
      (Known.call (callable_op hseq _)).guarded rfl rfl, hasAll_nil⟩
  | growUnchecked =>
    exact hasAll_cons.2 ⟨(Known.call (callable_op hseq _)).guarded rfl rfl, hasAll_nil⟩
  | growLoop =>
    show AllKnown ns m n (growLoopCommands i)
    unfold growLoopCommands
    simp only [hasAll_cons]
    exact ⟨.of_isSilent rfl, .of_isSilent rfl,
      (Known.call (callable_op hseq _)).guarded rfl rfl, hasAll_nil⟩

end Paged

theorem isPaged_iff {limits : Limits} :
    (MemoryEntry.defined limits).isPaged = true ↔ effectiveMax limits ≠ 0 := by
  simp [MemoryEntry.isPaged, MemoryEntry.maxPages?, UInt32.pos_iff_ne_zero]

/-- What a list of entries gives, entry by entry. -/
theorem callable_of_memory {entry : MemoryEntry} {k : Nat}
    (hk : (entry, k) ∈ (IndexSpaces.declared m).memories.toList.zipIdx) :
    ∀ r ∈ memorySequences ns (UInt32.ofNat k) entry, Callable ns m n r.symbol :=
  fun _ hr => .memory (List.mem_flatMap.2 ⟨_, hk, hr⟩)

/-- A memory with pages has its part in the sequence that stores the window. -/
theorem swapOutSequences_ne_nil {entry : MemoryEntry} {k : Nat}
    (hk : (entry, k) ∈ (IndexSpaces.declared m).memories.toList.zipIdx)
    (hpaged : entry.isPaged = true) : swapOutSequences ns (IndexSpaces.declared m) ≠ [] := by
  have hne : swapOutAllCommands ns (IndexSpaces.declared m).memories ≠ [] := by
    intro hnil
    have hpart := List.flatMap_eq_nil_iff.1 hnil _ hk
    simp only [hpaged] at hpart
    exact absurd hpart (by simp [swapOutIfOwner])
  unfold swapOutSequences
  split
  · rename_i hnil
    exact absurd hnil hne
  · exact List.cons_ne_nil _ _

include hns in
theorem allKnown_memories
    (h : s ∈ allMemorySequences ns (IndexSpaces.declared m)) : AllKnown ns m n s.commands := by
  obtain ⟨⟨entry, k⟩, hk, h⟩ := List.mem_flatMap.1 h
  have hseq := @callable_of_memory ns m n _ _ hk
  cases entry with
  | imported source =>
    obtain ⟨op, hop, rfl⟩ := List.mem_map.1 h
    refine known_call (.imported ?_)
    have hmem := List.mem_of_getElem? (List.mem_zipIdx_iff_getElem?.1 hk)
    rw [memories_declared] at hmem
    obtain hmem | hmem := List.mem_append.1 hmem
    · obtain ⟨i, hi, heq⟩ := List.mem_filterMap.1 hmem
      unfold importedMemory? at heq
      split at heq
      · rename_i limits hdesc
        cases heq
        exact .memory hi hdesc hop
      · cases heq
    · obtain ⟨limits, -, heq⟩ := List.mem_map.1 hmem
      cases heq
  | defined limits =>
    simp only [memorySequences] at h hseq
    split at h
    · simp only [pagelessSequences, List.mem_cons, List.not_mem_nil, or_false] at h
      rcases h with rfl | rfl | rfl | rfl <;> exact allKnown_of_silent (of_decide_eq_true rfl)
    · rename_i hmax
      rw [if_neg hmax] at hseq
      exact allKnown_paged hns hseq (swapOutSequences_ne_nil hk (isPaged_iff.2 hmax)) h

include hns in
theorem allKnown_swapOutAll :
    AllKnown ns m n (swapOutAllCommands ns (IndexSpaces.declared m).memories) := by
  intro c hc
  obtain ⟨⟨entry, k⟩, hk, hc⟩ := List.mem_flatMap.1 hc
  simp only at hc
  split at hc
  · rename_i hpaged
    have hcall : Callable ns m n (.memory (UInt32.ofNat k) .swapOut) := by
      have hseq := @callable_of_memory ns m n _ _ hk
      cases entry with
      | imported source => cases hpaged
      | defined limits =>
        simp only [memorySequences] at hseq
        rw [if_neg (isPaged_iff.1 hpaged)] at hseq
        exact callable_op hseq _
    have hall : AllKnown ns m n (swapOutIfOwner ns (UInt32.ofNat k)) :=
      hasAll_append.2 ⟨allKnown_ownerCheck hns rfl _,
        hasAll_cons.2 ⟨(Known.call hcall).guarded rfl rfl, hasAll_nil⟩⟩
    exact hall c hc
  · cases hc

theorem allKnown_initMemories : AllKnown ns m n (initMemories (IndexSpaces.declared m)) := by
  intro c hc
  obtain ⟨⟨entry, k⟩, hk, hc⟩ := List.mem_flatMap.1 hc
  obtain rfl | hc := List.mem_cons.1 hc
  · exact .of_isSilent rfl
  have hseq := @callable_of_memory ns m n _ _ hk
  cases entry with
  | imported source => cases hc
  | defined limits =>
    simp only at hc
    split at hc
    · rename_i hpaged
      simp only [memorySequences] at hseq
      rw [if_neg (isPaged_iff.1 (Bool.and_eq_true_iff.1 hpaged).1)] at hseq
      have hall : AllKnown ns m n [.setScore .a limits.min.toInt32,
          .call (.memory (UInt32.ofNat k) .growUnchecked)] :=
        hasAll_cons.2 ⟨.of_isSilent rfl, known_call (callable_op hseq _)⟩
      exact hall c hc
    · cases hc

end Memories

/-! ## Globals and exports -/

section Public

open Vocabulary

theorem allKnown_globals (h : s ∈ allGlobalSequences (IndexSpaces.declared m)) :
    AllKnown ns m n s.commands := by
  obtain ⟨⟨entry, k⟩, hk, h⟩ := List.mem_flatMap.1 h
  cases entry with
  | defined type init =>
    simp only [globalSequences, List.mem_cons, List.not_mem_nil, or_false] at h
    rcases h with rfl | rfl
    · exact allKnown_of_silent (all_cons.2 ⟨rfl, all_nil⟩)
    · exact allKnown_of_silent (all_cons.2 ⟨rfl, all_cons.2 ⟨rfl, all_nil⟩⟩)
  | imported type source =>
    obtain ⟨op, hop, rfl⟩ := List.mem_map.1 h
    refine known_call (.imported ?_)
    have hmem := List.mem_of_getElem? (List.mem_zipIdx_iff_getElem?.1 hk)
    rw [globals_declared] at hmem
    obtain hmem | hmem := List.mem_append.1 hmem
    · obtain ⟨i, hi, heq⟩ := List.mem_filterMap.1 hmem
      unfold importedGlobal? at heq
      split at heq
      · rename_i type' hdesc
        cases heq
        exact .global hi hdesc hop
      · cases heq
    · obtain ⟨g, -, heq⟩ := List.mem_map.1 hmem
      cases heq

/-- What is exported is there, so the sequence of an export calls something. -/
theorem allKnown_exports (hm : DeclarationsOk m)
    (h : s ∈ exportSequences (IndexSpaces.declared m) m) : AllKnown ns m n s.commands := by
  have hindex : ∀ {e kind}, e ∈ exportsOf m kind →
      Designates (IndexSpaces.declared m) e.index kind := fun he => by
    obtain ⟨hmem, hkind⟩ := List.mem_filter.1 he
    rw [← of_decide_eq_true hkind]
    exact (checkExport_eq_ok.1 (hm.exports _ hmem)).2
  obtain h | h := List.mem_append.1 h
  · obtain h | h := List.mem_append.1 h
    · obtain ⟨e, he, h⟩ := List.mem_flatMap.1 h
      obtain ⟨entry, hentry⟩ := hindex he
      rw [List.mem_singleton.1 h]
      exact allKnown_callSequence (callable_func hentry) _
    · obtain ⟨e, he, h⟩ := List.mem_flatMap.1 h
      obtain ⟨entry, hentry⟩ := hindex he
      obtain ⟨op, hop, rfl⟩ := List.mem_map.1 h
      exact known_call (callable_memory hentry hop)
  · obtain ⟨e, he, h⟩ := List.mem_flatMap.1 h
    obtain ⟨entry, hentry⟩ := hindex he
    unfold exportGlobal at h
    rw [entryAt_eq_ok.1 hentry] at h
    obtain ⟨op, hop, rfl⟩ := List.mem_map.1 h
    refine known_call (callable_global hentry ?_)
    cases entry with
    | defined type init => trivial
    | imported type source => exact hop

end Public

/-! ## Whole modules -/

section Whole

open Vocabulary

variable {p : Program} (c : Compiled ns m p)
  (hlive : m.allLive (fun i => !m.setsFrozen i) = true)

theorem mem_of_mem_zipIdx {α : Type} {xs : Array α} {x : α} {k : Nat}
    (h : (x, k) ∈ xs.toList.zipIdx) : x ∈ xs :=
  Array.mem_toList_iff.1 (List.mem_of_getElem? (List.mem_zipIdx_iff_getElem?.1 h))

namespace Compiled

include c

theorem spaces_eq : c.spaces = IndexSpaces.declared m := (ofModule_eq_ok.1 c.spacesOk).2

theorem declarationsOk : DeclarationsOk m := (ofModule_eq_ok.1 c.spacesOk).1

include hlive in
/-- Every command of a module is known. -/
theorem allKnown {s : Sequence} (hs : s ∈ p.sequences) :
    AllKnown ns m c.pool.size s.commands := by
  have hspaces := c.spaces_eq
  obtain ⟨hfunctions, ⟨rest, hrest, hinit⟩, hpool⟩ :=
    c.emitted (hspaces ▸ surrounds_known ns m) (hspaces ▸ liveCode_of_allLive hlive)
  have hns := plainText_of_checkNamespace c.namespaceOk
  rw [c.program] at hs
  simp only [c.spaces_eq, List.mem_append, List.mem_singleton] at hs
  obtain (((((hs | hs) | hs) | hs) | hs) | hs) | rfl := hs
  · exact (hfunctions s hs).2
  · exact allKnown_memories hns hs
  · rw [mem_swapOutSequences hs]
    exact allKnown_swapOutAll hns
  · exact allKnown_globals hs
  · exact allKnown_exports c.declarationsOk hs
  · obtain ⟨⟨cs, i⟩, hcs, rfl⟩ := List.mem_map.1 hs
    exact hpool cs (mem_of_mem_zipIdx hcs)
  · show AllKnown ns m _ c.init
    rw [hinit, initHead, hspaces]
    exact hasAll_append.2 ⟨hasAll_append.2
      ⟨allKnown_of_silent (by decide), allKnown_initMemories⟩, hrest⟩

/-- What may be called is there. -/
theorem exists_of_callable {f : Symbol} (h : Callable ns m c.pool.size f) :
    (∃ t ∈ p.sequences, t.symbol = f) ∨ (∃ t ∈ Library.program.sequences, t.symbol = f) ∨
      m.Declares f := by
  have hsequences := congrArg Program.sequences c.program
  simp only [c.spaces_eq] at hsequences
  cases h with
  | @func i hi =>
    obtain ⟨pool, hfunctions, -⟩ := c.exists_funcSequences
    have hsymbols := symbols_functions hfunctions
    have hmem : Symbol.func (UInt32.ofNat i) ∈ c.functions.map (·.symbol) := by
      rw [hsymbols, c.spaces_eq]
      refine List.mem_map.2 ⟨((IndexSpaces.declared m).funcs[i], i), ?_, rfl⟩
      rw [List.mem_zipIdx_iff_getElem?, Array.getElem?_toList]
      exact Array.getElem?_eq_getElem hi
    obtain ⟨t, ht, hsymbol⟩ := List.mem_map.1 hmem
    refine .inl ⟨t, ?_, hsymbol⟩
    rw [hsequences]
    simp only [List.mem_append, ht, true_or]
  | @fragment i hi =>
    refine .inl ⟨⟨.fragment (UInt32.ofNat i), c.pool[i]⟩, ?_, rfl⟩
    have hmem : ⟨.fragment (UInt32.ofNat i), c.pool[i]⟩ ∈ fragmentSequences c.pool := by
      refine List.mem_map.2 ⟨(c.pool[i], i), ?_, rfl⟩
      rw [List.mem_zipIdx_iff_getElem?, Array.getElem?_toList]
      exact Array.getElem?_eq_getElem hi
    rw [hsequences]
    simp only [List.mem_append, hmem, true_or, or_true]
  | @memory t ht =>
    refine .inl ⟨t, ?_, rfl⟩
    rw [hsequences]
    simp only [List.mem_append, ht, true_or, or_true]
  | @global t ht =>
    refine .inl ⟨t, ?_, rfl⟩
    rw [hsequences]
    simp only [List.mem_append, ht, true_or, or_true]
  | routine r => exact .inr (.inl ⟨_, Library.mem_routine r, rfl⟩)
  | imported h => exact .inr (.inr h)

include hlive in
theorem closed : p.Closed m.Declares := by
  have hns : PlainText p.ns := by
    rw [c.ns_eq]
    exact plainText_of_checkNamespace c.namespaceOk
  -- Constants are recognised in the text too, where no plain name can be taken for one.
  have hmentions : ∀ {s : Sequence} {d : Command}, s ∈ p.sequences → d ∈ s.commands →
      (∀ n, .const n ∈ d.registers → IsSeeded n) ∧ ∀ n, Mentions (d.render p.ns) n → IsSeeded n := by
    intro s d hs hd
    have hd := c.allKnown hlive hs d hd
    refine Command.mentions_of_isLegible hns hd.legible fun f hf => ?_
    rw [c.ns_eq] at hns ⊢
    exact (hd.callees f hf).plainText hns c.declarationsOk
  refine ⟨fun s hs d hd f hf => c.exists_of_callable ((c.allKnown hlive hs d hd).callees f hf),
    fun s hs d hd tag htag => ?_, fun s hs d hd => (hmentions hs hd).1, fun s hs text htext => ?_⟩
  · obtain ⟨rfl, hne⟩ := (c.allKnown hlive hs d hd).tags tag htag
    obtain ⟨t, ht⟩ := List.exists_mem_of_ne_nil _ hne
    rw [← c.spaces_eq] at ht
    refine ⟨rfl, t, c.mem_swapOutAll ht, ?_⟩
    rw [c.program]
    exact List.mem_map.2 ⟨t, ht, rfl⟩
  · obtain ⟨d, hd, rfl⟩ := List.mem_map.1 htext
    exact (hmentions hs hd).2

end Compiled

end Whole

end Compile

/-! ## The library -/

namespace Library

open Compile

/-- A command of the library is legible, calls sequences of the library, and no tag. -/
structure KnownHere (c : Command) : Prop where
  legible : c.isLegible = true
  callees : ∀ f ∈ c.callees, ∃ t ∈ program.sequences, t.symbol = f
  tags : c.calledTags = []

theorem KnownHere.of_callsRoutines {c : Command} (h : c.callsRoutines = true) : KnownHere c := by
  obtain ⟨hlegible, htags, hcallees⟩ := Command.callsRoutines_cases h
  refine ⟨hlegible, fun f hf => ?_, htags⟩
  obtain ⟨r, rfl⟩ := hcallees f hf
  exact ⟨_, mem_routine r, rfl⟩

theorem knownHere_routine (r : Routine) : ∀ c ∈ routineCommands r, KnownHere c := by
  have htree : ∀ {t : DispatchTree} {leaf : Nat → Command},
      (∀ q ∈ t.sequences leaf pageOffsets, q ∈ program.sequences) →
      KnownHere (.call (t.symbol pageOffsets)) := fun h =>
    ⟨rfl, fun f hf => ⟨⟨_, _⟩, h _ (List.mem_append_right _ List.mem_cons_self),
      (List.mem_singleton.1 hf).symm⟩, rfl⟩
  intro c hc
  cases r with
  | byteGet =>
    rw [List.mem_singleton.1 hc]
    exact htree fun q hq => List.mem_append_right _ (List.mem_append_left _ hq)
  | byteSet =>
    rw [List.mem_singleton.1 hc]
    exact htree fun q hq => List.mem_append_right _ (List.mem_append_right _ hq)
  | _ => exact .of_callsRoutines (List.all_eq_true.1 (by decide) c hc)

theorem KnownHere.guarded {c : Command} {g : Modifier}
    (hg : g.registers.all Register.isAtHand = true) (hp : g.paths.all Path.isPlain = true)
    (h : KnownHere c) : KnownHere (c.guarded g) where
  legible := Command.isLegible_guarded hg hp h.legible
  callees f hf := h.callees f (by rwa [Command.callees_guarded] at hf)
  tags := by rw [Command.calledTags_guarded, h.tags]

theorem knownHere_tree {t : DispatchTree} {leaf : Nat → Command} {s : Sequence}
    (hkey : t.key = .index) (hleaf : ∀ key, (leaf key).callsRoutines = true)
    (hmem : ∀ q ∈ t.sequences leaf pageOffsets, q ∈ program.sequences)
    (h : s ∈ t.sequences leaf pageOffsets) : ∀ c ∈ s.commands, KnownHere c := by
  have hguard : ∀ range, (Modifier.ifIn t.key range).registers.all Register.isAtHand = true := by
    rw [hkey]
    exact fun _ => rfl
  refine DispatchTree.forall_of_mem_sequences (fun key range => ?_) (fun part range hr => ?_) h
  · exact (KnownHere.of_callsRoutines (hleaf key)).guarded (hguard range) rfl
  · obtain ⟨r, hr, hsymbol⟩ := hr
    have hcall : KnownHere (.call (t.symbol part)) :=
      ⟨rfl, fun f hf => ⟨r, hmem r hr, hsymbol.trans (List.mem_singleton.1 hf).symm⟩, rfl⟩
    exact hcall.guarded (hguard range) rfl

theorem knownHere_program {s : Sequence} (hs : s ∈ program.sequences) :
    ∀ c ∈ s.commands, KnownHere c := by
  obtain h | h := List.mem_append.1 hs
  · obtain ⟨r, -, rfl⟩ := List.mem_map.1 h
    exact knownHere_routine r
  · obtain h | h := List.mem_append.1 h
    · exact knownHere_tree rfl (fun _ => rfl)
        (fun q hq => List.mem_append_right _ (List.mem_append_left _ hq)) h
    · exact knownHere_tree rfl (fun _ => rfl)
        (fun q hq => List.mem_append_right _ (List.mem_append_right _ hq)) h

/-- The names of the sequences of the library are plain. -/
theorem plainText_symbol {s : Sequence} (hs : s ∈ program.sequences) :
    PlainText (s.symbol.qualifiedName sharedNamespace) := by
  refine plainText_qualifiedName (by decide) ?_
  obtain ⟨r, rfl⟩ | ⟨part, -, rfl⟩ | ⟨part, -, rfl⟩ := mem_program hs
  all_goals exact fun _ ht => nomatch ht

theorem closed : program.Closed fun _ => False := by
  have hmentions : ∀ {s : Sequence} {d : Command}, s ∈ program.sequences → d ∈ s.commands →
      (∀ n, .const n ∈ d.registers → IsSeeded n) ∧
        ∀ n, Mentions (d.render sharedNamespace) n → IsSeeded n := by
    intro s d hs hd
    have hd := knownHere_program hs d hd
    refine Command.mentions_of_isLegible (by decide) hd.legible fun f hf => ?_
    obtain ⟨t, ht, rfl⟩ := hd.callees f hf
    exact plainText_symbol ht
  refine ⟨fun s hs d hd f hf => .inl ((knownHere_program hs d hd).callees f hf),
    fun s hs d hd tag htag => ?_, fun s hs d hd => (hmentions hs hd).1, fun s hs text htext => ?_⟩
  · rw [(knownHere_program hs d hd).tags] at htag
    cases htag
  · obtain ⟨d, hd, rfl⟩ := List.mem_map.1 htext
    exact (hmentions hs hd).2

end Library

namespace Compile

/-- **Compiled modules are closed**, as far as their live code does not set a global that is
    imported to be read only.  What they call is theirs, the library's, or an import that they
    declare; and the library itself is closed. -/
theorem compiled_closed :
    Library.program.Closed (fun _ => False) ∧
      ∀ {ns : String} {m : Module} {p : Program}, compileModule ns m = .ok p →
        m.allLive (fun i => !m.setsFrozen i) = true → p.Closed m.Declares := by
  refine ⟨Library.closed, fun {ns m p} hp hlive => ?_⟩
  obtain ⟨c⟩ := exists_compiled hp
  exact c.closed hlive

/-- A module with one import of each kind and a memory of its own.  Its function calls the imported
    one, keeps the result in the imported global and in memory; the setting of the read-only global
    is dead code. -/
def joinedModule : Module where
  types := [⟨[], [.i32]⟩, ⟨[], []⟩]
  imports := [⟨"other", "value", .func 0⟩, ⟨"other", "kept", .global ⟨.i32, true⟩⟩,
    ⟨"other", "fixed", .global ⟨.i32, false⟩⟩]
  funcs := [⟨1, [], [.call 0, .globalSet 0, .i32Const 0, .globalGet 1, .store (.full .i32) ⟨0, 0⟩,
    .ret, .globalSet 1]⟩]
  memories := [⟨1, some 1⟩]
  exports := [⟨"run", .func, 1⟩]

theorem compiled_closed_joined : ∃ p, compileModule "demo" joinedModule = .ok p ∧
    p.Closed joinedModule.Declares :=
  ⟨_, rfl, @compiled_closed.2 "demo" joinedModule _ rfl (by decide)⟩

end Compile

end WasmPack
