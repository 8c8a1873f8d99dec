/-
  WasmPack.Proofs.Pack.Lines

  The files of a compiled module are cut into its commands again.  Texts come
  into commands from the namespace, from exports and from imports; all of them
  have been tested, and everything else is made of the signs of the commands
  themselves, so no command runs over its line.
-/
import WasmPack.Compile.Bytes
import WasmPack.Pack.Contents
import WasmPack.Proofs.Closed.Known
import WasmPack.Proofs.Command.Printable
import WasmPack.Proofs.Compile.Sequences
import WasmPack.Proofs.Compile.Spaces
import WasmPack.Proofs.Pack.Names
import WasmPack.Proofs.Text.Cutting

namespace WasmPack

open Wasm

/-! ## Cutting lines -/

/-- Behind the newline of the last line stands nothing. -/
theorem Pack.segments_functionText {lines : List String} (hne : lines ≠ [])
    (h : ∀ line ∈ lines, '\n' ∉ line.toList) :
    Text.segments '\n' (functionText lines) = lines ++ [""] := by
  have hparts : ∀ part ∈ lines.map String.toList, '\n' ∉ part := by
    intro part hpart
    obtain ⟨line, hline, rfl⟩ := List.mem_map.1 hpart
    exact h line hline
  have htext : (functionText lines).toList =
      List.intercalate ['\n'] (lines.map String.toList) ++ '\n' :: [] := by
    rw [functionText, String.toList_append, String.toList_intercalate]
    rfl
  rw [Text.segments, htext, Text.cut_append, Text.cut_intercalate (by simpa using hne) hparts]
  simp [Text.cut]

namespace Compile

variable {ns : String} {m : Module} {p : Program} {n : Nat} {s : Sequence} {cs : List Command}
  {spaces : IndexSpaces} {i : UInt32}

/-! ## Names -/

theorem isPrintableChar_of_isNameChar {c : Char} (h : isNameChar c = true) :
    isPrintableChar c = true := by
  have hbetween : ∀ {lo hi : Char}, ' ' ≤ lo → hi ≤ '~' → lo ≤ c → c ≤ hi →
      isPrintableChar c = true := fun hlo hhi h h' => by
    simp only [isPrintableChar, Bool.and_eq_true, decide_eq_true_eq]
    exact ⟨Char.le_trans hlo h, Char.le_trans h' hhi⟩
  simp only [isNameChar, Bool.or_eq_true, Bool.and_eq_true, decide_eq_true_eq] at h
  obtain (((h | h) | rfl) | rfl) | rfl := h
  · exact hbetween (by decide) (by decide) h.1 h.2
  · exact hbetween (by decide) (by decide) h.1 h.2
  all_goals decide

theorem printable_of_checkNamespace (h : checkNamespace ns = .ok ()) : Printable ns := by
  unfold checkNamespace at h
  split at h
  · cases h
  split at h
  · cases h
  · rename_i hn
    simp only [Bool.or_eq_true, not_or, Bool.not_eq_true', Bool.not_eq_false] at hn
    exact spelled_iff.2 fun c hc =>
      isPrintableChar_of_isNameChar (List.all_eq_true.1 hn.2 c hc)

theorem printable_of_isNamePath {path : String} (h : IsNamePath path) : Printable path := by
  refine spelled_iff.2 fun c hc => ?_
  obtain rfl | ⟨part, hpart, hc⟩ := @Text.mem_cut '/' _ _ hc
  · decide
  · have hsegment := List.all_eq_true.1 h part hpart
    simp only [isNameSegment, Bool.and_eq_true] at hsegment
    exact isPrintableChar_of_isNameChar (List.all_eq_true.1 hsegment.2 c hc)

/-- The name of a path in a namespace is a line. -/
theorem IsPathIn.isLine {name : String} (hns : Printable ns) (h : IsPathIn ns name) :
    IsLine name := by
  obtain ⟨path, rfl, hpath⟩ := h
  have htext : ns ++ ":" ++ path ≠ "" := by
    intro hempty
    exact absurd (String.append_eq_empty_iff.1 (String.append_eq_empty_iff.1 hempty).1).2
      (by decide)
  exact ⟨htext, (hns.append (by decide)).append (printable_of_isNamePath hpath)⟩

/-- A source whose parts have been tested. -/
def IsTested (source : ExternalId) : Prop := Printable source.origin ∧ Printable source.member

theorem isTested_of_import (hm : DeclarationsOk m) {source : ExternalId}
    (h : ∃ i ∈ m.imports, source = ⟨i.origin, i.member⟩) : IsTested source := by
  obtain ⟨i, hi, rfl⟩ := h
  exact ⟨printable_of_checkNamespace (hm.imports i hi).origin,
    printable_of_isNamePath (checkName_eq_ok.1 (hm.imports i hi).member)⟩

/-! ## Code of the module -/

/-- All the commands are printable. -/
abbrev AllPrintable : List Command → Prop := All Command.isPrintable

theorem isPrintable_call {f : Symbol} (h : ∀ t ∈ f.parts, Printable t) :
    (Command.call f).isPrintable = true :=
  Command.isPrintable_iff.2 ⟨fun _ hp => (nomatch hp), fun _ hv => (nomatch hv),
    fun _ hf => List.mem_singleton.1 hf ▸ h⟩

theorem isPrintable_import {source : ExternalId} (h : IsTested source) {f : Symbol}
    (hf : f.parts = [source.origin, source.member]) : (Command.call f).isPrintable = true := by
  refine isPrintable_call fun t ht => ?_
  rw [hf, List.mem_cons, List.mem_singleton] at ht
  obtain rfl | rfl := ht
  · exact h.1
  · exact h.2

/-- Printable commands, whatever the number of fragments. -/
def Vocabulary.printable : Vocabulary where
  Has _ c := c.isPrintable = true
  grows _ h := h
  control h := by cases h <;> rfl
  fragment _ := rfl
  guarded hg hc := by
    rw [Command.isPrintable_guarded (by cases hg <;> rfl)]
    exact hc

theorem printable_callSequence {f : Symbol} (h : (Command.call f).isPrintable = true)
    (params : Nat) : AllPrintable (callSequence f params) := by
  unfold callSequence
  simp only [all_append, all_cons]
  exact ⟨⟨⟨⟨rfl, all_nil⟩, all_map fun j _ => rfl⟩, all_replicate rfl⟩, h, rfl, rfl, all_nil⟩

theorem printable_byteAddress (k : Nat) : AllPrintable (byteAddress k) := by
  unfold byteAddress
  split
  · exact all_cons.2 ⟨rfl, all_nil⟩
  · exact all_cons.2 ⟨rfl, all_cons.2 ⟨rfl, all_nil⟩⟩

theorem printable_loadAddress (arg : MemArg) : AllPrintable (loadAddress arg) := by
  unfold loadAddress
  split
  · exact all_cons.2 ⟨rfl, all_nil⟩
  · exact all_cons.2 ⟨rfl, all_cons.2 ⟨rfl, all_nil⟩⟩

theorem printable_of_lowerLoad {op : LoadOp} {arg : MemArg} (h : lowerLoad op arg = .ok cs) :
    AllPrintable cs := by
  have hbyte : ∀ width sign k, AllPrintable (loadByte width sign k) := by
    intro width sign k
    unfold loadByte
    simp only [all_append]
    refine ⟨⟨⟨printable_byteAddress k, all_cons.2 ⟨rfl, all_nil⟩⟩, ?_⟩, ?_⟩
    · split
      · exact all_nil
      · exact all_cons.2 ⟨rfl, all_nil⟩
    · split
      · exact all_cons.2 ⟨rfl, all_nil⟩
      · exact all_cons.2 ⟨rfl, all_cons.2 ⟨rfl, all_nil⟩⟩
  unfold lowerLoad at h
  split at h
  · cases h
    simp only [all_append]
    exact ⟨⟨printable_loadAddress arg, all_flatMap fun k _ => hbyte _ _ k⟩,
      all_cons.2 ⟨rfl, all_nil⟩⟩
  · cases h

theorem printable_of_lowerStore {op : StoreOp} {arg : MemArg} (h : lowerStore op arg = .ok cs) :
    AllPrintable cs := by
  have hbyte : ∀ width k, AllPrintable (storeByte width k) := by
    intro width k
    unfold storeByte
    simp only [all_append, all_cons]
    refine ⟨⟨printable_byteAddress k, rfl, rfl, rfl, all_nil⟩, ?_⟩
    split
    · exact all_cons.2 ⟨rfl, all_nil⟩
    · exact all_nil
  unfold lowerStore at h
  split at h
  · cases h
    simp only [all_append, all_cons]
    exact ⟨⟨⟨⟨rfl, rfl, all_nil⟩, printable_loadAddress arg⟩, rfl, all_nil⟩,
      all_flatMap fun k _ => hbyte _ k⟩
  · cases h

/-- Instructions without branches give printable commands. -/
theorem covers_printable (scope : Scope) :
    Vocabulary.printable.Covers scope fun _ => true := by
  intro height height' i cs _ h n
  cases lowerStraight_eq_ok.1 h with
  | nop => exact all_nil
  | call hf => exact printable_callSequence rfl _
  | drop | select =>
    show AllPrintable _
    decide
  | localGet | localTee | i32Const => exact all_cons.2 ⟨rfl, all_nil⟩
  | localSet => exact all_cons.2 ⟨rfl, all_cons.2 ⟨rfl, all_nil⟩⟩
  | globalGet | globalSet | memorySize | memoryGrow => exact all_cons.2 ⟨rfl, all_nil⟩
  | load hm hbase hload => exact printable_of_lowerLoad hload
  | store hm hbase hstore => exact printable_of_lowerStore hstore
  | numeric hop =>
    have hall : ∀ lowered ∈ supportedNumeric, AllPrintable lowered.commands := by decide
    exact hall _ (mem_supportedNumeric hop)

theorem printable_setGlobal (index : UInt32) : AllPrintable (setGlobal index) :=
  all_cons.2 ⟨rfl, all_cons.2 ⟨rfl, all_nil⟩⟩

/-- So is what is put around the code of a module whose imports have been tested. -/
theorem surrounds_printable (hm : DeclarationsOk m) :
    Vocabulary.printable.Surrounds (.declared m) fun _ => true where
  covers _ := covers_printable _
  localRoom := rfl
  forward hsource params := by
    have htested := isTested_of_import hm (fromImports_declared.funcs hsource)
    exact all_append.2 ⟨all_map fun _ _ => rfl,
      all_cons.2 ⟨isPrintable_import htested rfl, all_nil⟩⟩
  globalRoom := rfl
  setGlobal := printable_setGlobal
  address := all_cons.2 ⟨rfl, all_cons.2 ⟨rfl, all_nil⟩⟩
  writeByte _ k byte := all_append.2 ⟨printable_byteAddress k,
    all_cons.2 ⟨rfl, all_cons.2 ⟨rfl, all_nil⟩⟩⟩
  start _ := printable_callSequence rfl 0

/-! ## Memories -/

section Memories

variable (hns : Printable ns)

include hns

/-- The mark of a memory brings the namespace of the module into a command. -/
theorem isPrintable_mark {path : Path} (hpath : ∀ k ∈ path.keys, Printable k) :
    (Command.setData path (ownerId ns i)).isPrintable = true := by
  refine Command.isPrintable_iff.2 ⟨fun p hp => ?_, fun v hv t ht => ?_, fun _ hf => nomatch hf⟩
  · rw [List.mem_singleton.1 hp]
    exact hpath
  · rw [List.mem_singleton.1 hv] at ht
    rw [List.mem_singleton.1 ht]
    exact (hns.append (by decide)).append (.nat lenient_isPrintableChar _)

theorem printable_ownerCheck (r : Register) : AllPrintable (ownerCheck ns i r) := by
  have hmark : (Command.setData scratch (ownerId ns i)).isPrintable = true :=
    isPrintable_mark hns (by decide)
  have hstored : (Command.execute [.store .success (.score r)]
      (.setData scratch (ownerId ns i))).isPrintable = true := hmark
  exact all_cons.2 ⟨rfl, all_cons.2 ⟨hstored, all_nil⟩⟩

theorem printable_swapIn (max : UInt32) : AllPrintable (swapInCommands ns i max) := by
  have hmark : (onFault (.setData windowId (ownerId ns i))).isPrintable = true := by
    rw [onFault, Command.isPrintable_ifIn]
    exact isPrintable_mark hns (by decide)
  unfold swapInCommands
  simp only [all_append, all_cons]
  exact ⟨⟨⟨rfl, all_nil⟩, printable_ownerCheck hns .pageFault⟩, rfl, rfl, rfl, rfl, rfl, hmark, rfl,
    all_nil⟩

theorem printable_paged {max : UInt32} (h : s ∈ pagedSequences ns i max) :
    AllPrintable s.commands := by
  obtain h | h | ⟨op, rfl⟩ := mem_paged h
  · exact DispatchTree.forall_of_mem_sequences (fun _ _ => rfl) (fun _ _ _ => rfl) h
  · exact DispatchTree.forall_of_mem_sequences (fun _ _ => rfl) (fun _ _ _ => rfl) h
  cases op with
  | swapIn => exact printable_swapIn hns max
  | _ =>
    intro c hc
    simp only [pagedOperation, swapOutCommands, accessCommands, sizeCommands, growCommands,
      growUncheckedCommands, growLoopCommands, List.mem_cons, List.not_mem_nil, or_false] at hc
    rcases hc with rfl | rfl | rfl | rfl | rfl | rfl | rfl | rfl | rfl <;> rfl

theorem printable_swapOutAll (memories : Array MemoryEntry) :
    AllPrintable (swapOutAllCommands ns memories) := by
  refine all_flatMap fun ⟨entry, i⟩ _ => ?_
  simp only
  split
  · exact all_append.2 ⟨printable_ownerCheck hns .swap, all_cons.2 ⟨rfl, all_nil⟩⟩
  · exact all_nil

theorem printable_memory (hm : DeclarationsOk m) {entry : MemoryEntry}
    (hentry : entry ∈ (IndexSpaces.declared m).memories) (h : s ∈ memorySequences ns i entry) :
    AllPrintable s.commands := by
  cases entry with
  | imported source =>
    have htested := isTested_of_import hm (fromImports_declared.memories hentry)
    obtain ⟨op, -, rfl⟩ := List.mem_map.1 h
    exact all_cons.2 ⟨isPrintable_import htested rfl, all_nil⟩
  | defined limits =>
    simp only [memorySequences] at h
    split at h
    · simp only [pagelessSequences, List.mem_cons, List.not_mem_nil, or_false] at h
      rcases h with rfl | rfl | rfl | rfl <;> exact of_decide_eq_true rfl
    · exact printable_paged hns h

end Memories

theorem printable_initHead (spaces : IndexSpaces) : AllPrintable (initHead spaces) := by
  unfold initHead
  simp only [all_append, all_cons]
  refine ⟨⟨rfl, rfl, all_nil⟩, all_flatMap fun numbered _ => ?_⟩
  obtain ⟨entry, i⟩ := numbered
  refine all_cons.2 ⟨rfl, ?_⟩
  cases entry with
  | imported source => exact all_nil
  | defined limits =>
    simp only
    split
    · exact all_cons.2 ⟨rfl, all_cons.2 ⟨rfl, all_nil⟩⟩
    · exact all_nil

/-! ## Globals and exports -/

theorem printable_global (hm : DeclarationsOk m)
    (h : s ∈ allGlobalSequences (.declared m)) : AllPrintable s.commands := by
  obtain ⟨⟨entry, k⟩, hk, h⟩ := List.mem_flatMap.1 h
  cases entry with
  | defined type init =>
    obtain rfl | h := List.mem_cons.1 h
    · exact all_cons.2 ⟨rfl, all_nil⟩
    · rw [List.mem_singleton.1 h]
      exact printable_setGlobal _
  | imported type source =>
    have hentry : .imported type source ∈ (IndexSpaces.declared m).globals :=
      Array.mem_toList_iff.1 (List.mem_of_getElem? (List.mem_zipIdx_iff_getElem?.1 hk))
    have htested := isTested_of_import hm (fromImports_declared.globals hentry)
    obtain ⟨op, -, rfl⟩ := List.mem_map.1 h
    exact all_cons.2 ⟨isPrintable_import htested rfl, all_nil⟩

theorem printable_export (h : s ∈ exportSequences spaces m) : AllPrintable s.commands := by
  obtain h | h := List.mem_append.1 h
  · obtain h | h := List.mem_append.1 h
    · obtain ⟨e, -, h⟩ := List.mem_flatMap.1 h
      rw [List.mem_singleton.1 h]
      exact printable_callSequence rfl _
    · obtain ⟨e, -, h⟩ := List.mem_flatMap.1 h
      obtain ⟨op, -, rfl⟩ := List.mem_map.1 h
      exact all_cons.2 ⟨rfl, all_nil⟩
  · obtain ⟨e, -, h⟩ := List.mem_flatMap.1 h
    obtain ⟨op, -, rfl⟩ := List.mem_map.1 h
    exact all_cons.2 ⟨rfl, all_nil⟩

/-! ## The whole module -/

/-- Every command of a compiled module is printable. -/
theorem Compiled.printable (c : Compiled ns m p) (hs : s ∈ p.sequences) :
    AllPrintable s.commands := by
  have hns := printable_of_checkNamespace c.namespaceOk
  obtain ⟨hm, hspaces⟩ := ofModule_eq_ok.1 c.spacesOk
  obtain ⟨hfunctions, ⟨rest, hrest, hinit⟩, hpool⟩ :=
    c.emitted (hspaces ▸ surrounds_printable hm) (liveCode_of_forall fun _ => rfl)
  rw [c.program] at hs
  simp only [List.mem_append, List.mem_singleton] at hs
  obtain (((((hs | hs) | hs) | hs) | hs) | hs) | rfl := hs
  · exact (hfunctions s hs).2
  · obtain ⟨⟨entry, k⟩, hk, hs⟩ := List.mem_flatMap.1 hs
    have hentry : entry ∈ c.spaces.memories :=
      Array.mem_toList_iff.1 (List.mem_of_getElem? (List.mem_zipIdx_iff_getElem?.1 hk))
    rw [hspaces] at hentry
    exact printable_memory hns hm hentry hs
  · rw [mem_swapOutSequences hs]
    exact printable_swapOutAll hns _
  · rw [hspaces] at hs
    exact printable_global hm hs
  · exact printable_export hs
  · obtain ⟨⟨cs, k⟩, hk, rfl⟩ := List.mem_map.1 hs
    exact hpool cs
      (Array.mem_toList_iff.1 (List.mem_of_getElem? (List.mem_zipIdx_iff_getElem?.1 hk)))
  · rw [hinit]
    exact all_append.2 ⟨printable_initHead _, hrest⟩

/-- What is compiled from bytes is compiled from the module that they encode. -/
theorem exists_module_of_compileBytes {bytes : Array UInt8} (h : compileBytes ns bytes = .ok p) :
    ∃ m, compileModule ns m = .ok p := by
  obtain ⟨m, -, h⟩ := except_bind_eq_ok.1 h
  refine ⟨m, ?_⟩
  cases hm : compileModule ns m with
  | error e =>
    rw [hm] at h
    cases h
  | ok q =>
    rw [hm] at h
    exact congrArg Except.ok (Except.ok.inj h)

/-- The members that a module gives to tags are sequences of its own. -/
theorem Compiled.exists_of_tagMember (c : Compiled ns m p) {tag : Tag} {name : String}
    (h : name ∈ p.tagMembers tag) : ∃ s ∈ p.sequences, p.nameOf s = name := by
  obtain ⟨⟨other, symbol⟩, hentry, rfl⟩ := List.mem_map.1 h
  have hentry := (List.mem_filter.1 hentry).1
  rw [c.program] at hentry
  obtain ⟨s, hs, heq⟩ := List.mem_map.1 hentry
  cases heq
  exact ⟨s, c.mem_swapOutAll hs, rfl⟩

/-- **No text of a module leaves its line.**  Whatever bytes compile to, in any namespace, the names
    of its sequences and of the members it gives to tags are lines of printable characters, and so
    are its commands; and the file of a sequence with commands is cut at its newlines into exactly
    these lines, in order. -/
theorem lines_of_compileBytes {bytes : Array UInt8} (h : compileBytes ns bytes = .ok p) :
    (∀ s ∈ p.sequences, IsLine (p.nameOf s) ∧ (∀ line ∈ p.linesOf s, IsLine line) ∧
      (s.commands ≠ [] →
        Text.segments '\n' (Pack.functionText (p.linesOf s)) = p.linesOf s ++ [""])) ∧
    ∀ tag, ∀ name ∈ p.tagMembers tag, IsLine name := by
  obtain ⟨m, hm⟩ := exists_module_of_compileBytes h
  obtain ⟨c⟩ := exists_compiled hm
  have hns := printable_of_checkNamespace c.namespaceOk
  have hname : ∀ s ∈ p.sequences, IsLine (p.nameOf s) := fun s hs => (c.isPathIn hs).isLine hns
  have hlines : ∀ s ∈ p.sequences, ∀ line ∈ p.linesOf s, IsLine line := by
    intro s hs line hline
    obtain ⟨d, hd, rfl⟩ := List.mem_map.1 hline
    rw [c.ns_eq]
    exact isLine_render hns (c.printable hs d hd)
  refine ⟨fun s hs => ⟨hname s hs, hlines s hs, fun hne => ?_⟩, fun tag name hname' => ?_⟩
  · refine Pack.segments_functionText (by simpa [Program.linesOf] using hne) fun line hline => ?_
    exact (hlines s hs line hline).2.not_mem_newline
  · obtain ⟨s, hs, rfl⟩ := c.exists_of_tagMember hname'
    exact hname s hs

/-- The bytes of a module that imports the function `f` of `other` and exports, as `run`, one that
    calls it. -/
def relayBytes : Array UInt8 :=
  #[0x00, 0x61, 0x73, 0x6d, 0x01, 0x00, 0x00, 0x00,
    0x01, 0x04, 0x01, 0x60, 0x00, 0x00,
    0x02, 0x0b, 0x01, 0x05, 0x6f, 0x74, 0x68, 0x65, 0x72, 0x01, 0x66, 0x00, 0x00,
    0x03, 0x02, 0x01, 0x00,
    0x07, 0x07, 0x01, 0x03, 0x72, 0x75, 0x6e, 0x00, 0x01,
    0x0a, 0x06, 0x01, 0x04, 0x00, 0x10, 0x00, 0x0b]

theorem lines_of_compileBytes_relay : ∃ p, compileBytes "demo" relayBytes = .ok p ∧
    ∀ s ∈ p.sequences, IsLine (p.nameOf s) ∧ (∀ line ∈ p.linesOf s, IsLine line) ∧
      (s.commands ≠ [] →
        Text.segments '\n' (Pack.functionText (p.linesOf s)) = p.linesOf s ++ [""]) := by
  have hcompiles : (compileBytes "demo" relayBytes).isOk = true := by decide +kernel
  cases h : compileBytes "demo" relayBytes with
  | error e =>
    rw [h] at hcompiles
    cases hcompiles
  | ok p => exact ⟨p, rfl, (lines_of_compileBytes h).1⟩

end Compile

end WasmPack
