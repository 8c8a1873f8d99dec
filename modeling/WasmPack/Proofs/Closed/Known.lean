/-
  WasmPack.Proofs.Closed.Known

  Commands that mention nothing unknown: they call sequences that are there,
  and name constants that the library sets.  These commands are a vocabulary
  that code generation stays within.
-/
import WasmPack.Library.Basic
import WasmPack.Proofs.Closed.Mentions
import WasmPack.Proofs.Compile.Contents
import WasmPack.Proofs.Compile.Distinct
import WasmPack.Proofs.Compile.Vocabulary
import WasmPack.Proofs.Text.Cutting

namespace WasmPack

open Compile Wasm

/-! ## Constants -/

/-- A number whose register is set when the library is loaded. -/
def IsSeeded (n : Int32) : Prop := .setScore (.const n) n ∈ Library.routineCommands .load

theorem isSeeded_of_mem {n : Int32} (h : n ∈ Register.seeded) : IsSeeded n := by
  have hmem : Command.setScore (.const n) n ∈
      Register.seeded.map fun n => Command.setScore (.const n) n := List.mem_map.2 ⟨n, h, rfl⟩
  simp only [IsSeeded, Library.routineCommands, Library.loadCommands, List.mem_append]
  exact .inl (.inl (.inl (.inr hmem)))

/-- The register is not a constant, or one that the library sets. -/
def Register.isAtHand : Register → Bool
  | .const n => n ∈ Register.seeded
  | _ => true

/-- The registers of the command are at hand, and its paths and values are plain. -/
def Command.isLegible (c : Command) : Bool :=
  c.registers.all Register.isAtHand && c.paths.all Path.isPlain && c.values.all Nbt.isPlain

/-- The command calls nothing that is not known, and is legible. -/
def Command.isSilent (c : Command) : Bool :=
  c.isLegible && c.callees.isEmpty && c.calledTags.isEmpty

/-- The command calls routines of the library only, and is legible. -/
def Command.callsRoutines (c : Command) : Bool :=
  c.isLegible && c.calledTags.isEmpty && c.callees.all fun
    | .routine _ => true
    | _ => false

variable {c : Command} {g : Modifier}

theorem Command.callsRoutines_cases (h : c.callsRoutines = true) :
    c.isLegible = true ∧ c.calledTags = [] ∧ ∀ f ∈ c.callees, ∃ r, f = .routine r := by
  simp only [callsRoutines, Bool.and_eq_true_iff, List.isEmpty_iff, List.all_eq_true] at h
  obtain ⟨⟨hlegible, htags⟩, hcallees⟩ := h
  refine ⟨hlegible, htags, fun f hf => ?_⟩
  have hroutine := hcallees f hf
  cases f with
  | routine r => exact ⟨r, rfl⟩
  | _ => cases hroutine

theorem Command.isLegible_guarded (hg : g.registers.all Register.isAtHand = true)
    (hp : g.paths.all Path.isPlain = true) (hc : c.isLegible = true) :
    (c.guarded g).isLegible = true := by
  simp only [isLegible, Bool.and_eq_true_iff, List.all_eq_true] at hg hp hc ⊢
  obtain ⟨⟨hregisters, hpaths⟩, hvalues⟩ := hc
  refine ⟨⟨fun r hr => ?_, fun p hp' => ?_⟩, by rwa [values_guarded]⟩
  · rw [registers_guarded] at hr
    exact (List.mem_append.1 hr).elim (hg r) (hregisters r)
  · exact (mem_paths_guarded.1 hp').elim (hp p) (hpaths p)

/-- What a legible command mentions, in its text too. -/
theorem Command.mentions_of_isLegible {ns : String} (hns : PlainText ns) (h : c.isLegible = true)
    (hcallees : ∀ f ∈ c.callees, PlainText (f.qualifiedName ns)) :
    (∀ n, .const n ∈ c.registers → IsSeeded n) ∧ ∀ n, Mentions (c.render ns) n → IsSeeded n := by
  simp only [isLegible, Bool.and_eq_true_iff, List.all_eq_true] at h
  obtain ⟨⟨hregisters, hpaths⟩, hvalues⟩ := h
  have hseeded : ∀ n, .const n ∈ c.registers → IsSeeded n := fun n hn =>
    isSeeded_of_mem (of_decide_eq_true (hregisters _ hn))
  exact ⟨hseeded, (adds_render hns (isSeeded_of_mem (by decide))
    ⟨hseeded, hpaths, hvalues, hcallees⟩).mentions⟩

/-! ## Programs -/

/-- Nothing in the program is left open: what is called is a sequence of the program or of the
    library or declared elsewhere, a tag that is called has a member, and every constant that is
    mentioned is one that the library sets. -/
structure Program.Closed (p : Program) (Declared : Symbol → Prop) : Prop where
  callees : ∀ s ∈ p.sequences, ∀ c ∈ s.commands, ∀ f ∈ c.callees,
    (∃ t ∈ p.sequences, t.symbol = f) ∨ (∃ t ∈ Library.program.sequences, t.symbol = f) ∨
      Declared f
  tags : ∀ s ∈ p.sequences, ∀ c ∈ s.commands, ∀ tag ∈ c.calledTags,
    tag = .swapOut ∧ ∃ t ∈ p.sequences, (tag, t.symbol) ∈ p.tags
  registers : ∀ s ∈ p.sequences, ∀ c ∈ s.commands, ∀ n, .const n ∈ c.registers → IsSeeded n
  texts : ∀ s ∈ p.sequences, ∀ text ∈ p.linesOf s, ∀ n, Mentions text n → IsSeeded n

/-! ## Imports -/

/-- The symbols of what a module imports. -/
inductive Wasm.Module.Declares (m : Module) : Symbol → Prop where
  | func {i : Import} {type : UInt32} (hi : i ∈ m.imports) (hdesc : i.desc = .func type) :
      Declares m (.importFunc ⟨i.origin, i.member⟩)
  | memory {i : Import} {limits : Limits} {op : MemoryOp} (hi : i ∈ m.imports)
      (hdesc : i.desc = .memory limits) (hop : op ∈ MemoryOp.exported) :
      Declares m (.importMemory ⟨i.origin, i.member⟩ op)
  | global {i : Import} {type : GlobalType} {op : GlobalOp} (hi : i ∈ m.imports)
      (hdesc : i.desc = .global type) (hop : op ∈ globalOps type) :
      Declares m (.importGlobal ⟨i.origin, i.member⟩ op)

/-- The types of the globals that a module imports, in the order of their indices. -/
def Wasm.Module.importedGlobals (m : Module) : List GlobalType :=
  m.imports.filterMap fun i =>
    match i.desc with
    | .global type => some type
    | _ => none

/-- The instruction sets a global that is imported to be read only. -/
def Wasm.Module.setsFrozen (m : Module) : Instr → Bool
  | .globalSet index => (m.importedGlobals[index.toNat]?).any fun type => !type.isMutable
  | _ => false

namespace Compile

variable {ns : String} {m : Module} {n n' : Nat} {f : Symbol} {cs ds : List Command}

/-! ## Plain names -/

theorem plainText_of_isNameChar {text : String} (h : text.toList.all isNameChar = true) :
    PlainText text := fun hc => absurd (List.all_eq_true.1 h '#' hc) (by decide)

theorem all_isNameChar_of_checkNamespace {ns : String} (h : checkNamespace ns = .ok ()) :
    ns.toList.all isNameChar = true := by
  unfold checkNamespace at h
  split at h
  · cases h
  split at h
  · cases h
  · rename_i hn
    simp only [Bool.or_eq_true, not_or, Bool.not_eq_true', Bool.not_eq_false] at hn
    exact hn.2

theorem plainText_of_checkNamespace {ns : String} (h : checkNamespace ns = .ok ()) :
    PlainText ns := plainText_of_isNameChar (all_isNameChar_of_checkNamespace h)

theorem plainText_of_checkName {kind : NameKind} {name : String}
    (h : checkName kind name = .ok ()) : PlainText name := by
  unfold checkName at h
  split at h
  · rename_i hall
    intro hc
    obtain hslash | ⟨part, hpart, hc⟩ := @Text.mem_cut '/' _ _ hc
    · exact absurd hslash (by decide)
    · have hsegment := List.all_eq_true.1 hall part hpart
      simp only [isNameSegment, Bool.and_eq_true] at hsegment
      exact absurd (List.all_eq_true.1 hsegment.2 '#' hc) (by decide)
  · cases h

/-! ## Known commands -/

/-- What sequences of a module call, by the number of fragments there are. -/
inductive Callable (ns : String) (m : Module) (n : Nat) : Symbol → Prop where
  | func {i : Nat} (hi : i < (IndexSpaces.declared m).funcs.size) :
      Callable ns m n (.func (UInt32.ofNat i))
  | fragment {i : Nat} (hi : i < n) : Callable ns m n (.fragment (UInt32.ofNat i))
  | memory {s : Sequence} (hs : s ∈ allMemorySequences ns (IndexSpaces.declared m)) :
      Callable ns m n s.symbol
  | global {s : Sequence} (hs : s ∈ allGlobalSequences (IndexSpaces.declared m)) :
      Callable ns m n s.symbol
  | routine (r : Routine) : Callable ns m n (.routine r)
  | imported {f : Symbol} (h : m.Declares f) : Callable ns m n f

theorem Callable.grow (h : Callable ns m n f) (hle : n ≤ n') : Callable ns m n' f := by
  cases h with
  | func hi => exact .func hi
  | fragment hi => exact .fragment (Nat.lt_of_lt_of_le hi hle)
  | memory hs => exact .memory hs
  | global hs => exact .global hs
  | routine r => exact .routine r
  | imported h => exact .imported h

/-- The name of a sequence that is called is plain. -/
theorem Callable.plainText (hns : PlainText ns) (hm : DeclarationsOk m) (h : Callable ns m n f) :
    PlainText (f.qualifiedName ns) := by
  have hsource : ∀ {i : Import}, i ∈ m.imports → PlainText i.origin ∧ PlainText i.member :=
    fun hi => ⟨plainText_of_checkNamespace (hm.imports _ hi).origin,
      plainText_of_checkName (hm.imports _ hi).member⟩
  refine plainText_qualifiedName hns ?_
  cases h with
  | func hi => exact fun _ ht => nomatch ht
  | fragment hi => exact fun _ ht => nomatch ht
  | @memory s hs =>
    obtain ⟨⟨entry, i⟩, -, hs⟩ := List.mem_flatMap.1 hs
    have hown := oneEach_memory.isOfMemory s hs
    cases hsymbol : s.symbol with
    | memory j op => exact fun _ ht => nomatch ht
    | tree base lo hi => exact fun _ ht => nomatch ht
    | _ =>
      rw [hsymbol] at hown
      exact hown.elim
  | @global s hs =>
    obtain ⟨⟨entry, i⟩, -, hs⟩ := List.mem_flatMap.1 hs
    obtain ⟨op, hsymbol⟩ := (nodup_global _ entry).2 s hs
    rw [hsymbol]
    exact fun _ ht => nomatch ht
  | routine r => exact fun _ ht => nomatch ht
  | imported h =>
    cases h with
    | func hi hdesc => simpa [Symbol.parts] using hsource hi
    | memory hi hdesc hop => simpa [Symbol.parts] using hsource hi
    | global hi hdesc hop => simpa [Symbol.parts] using hsource hi

/-- The command is legible, calls what may be called, and the tag that stores the window only if
    that has a member. -/
structure Known (ns : String) (m : Module) (n : Nat) (c : Command) : Prop where
  legible : c.isLegible = true
  callees : ∀ f ∈ c.callees, Callable ns m n f
  tags : ∀ tag ∈ c.calledTags, tag = .swapOut ∧
    swapOutSequences ns (IndexSpaces.declared m) ≠ []

namespace Known

theorem of_isSilent (h : c.isSilent = true) : Known ns m n c := by
  simp only [Command.isSilent, Bool.and_eq_true_iff, List.isEmpty_iff] at h
  obtain ⟨⟨hlegible, hcallees⟩, htags⟩ := h
  refine ⟨hlegible, fun f hf => ?_, fun tag htag => ?_⟩
  · rw [hcallees] at hf
    cases hf
  · rw [htags] at htag
    cases htag

theorem of_callsRoutines (h : c.callsRoutines = true) : Known ns m n c := by
  obtain ⟨hlegible, htags, hcallees⟩ := Command.callsRoutines_cases h
  refine ⟨hlegible, fun f hf => ?_, fun tag htag => ?_⟩
  · obtain ⟨r, rfl⟩ := hcallees f hf
    exact .routine r
  · rw [htags] at htag
    cases htag

theorem call (h : Callable ns m n f) : Known ns m n (.call f) :=
  ⟨rfl, fun _ hf => List.mem_singleton.1 hf ▸ h, fun _ htag => nomatch htag⟩

theorem guarded (hg : g.registers.all Register.isAtHand = true)
    (hp : g.paths.all Path.isPlain = true) (h : Known ns m n c) : Known ns m n (c.guarded g) where
  legible := Command.isLegible_guarded hg hp h.legible
  callees f hf := h.callees f (by rwa [Command.callees_guarded] at hf)
  tags tag htag := h.tags tag (by rwa [Command.calledTags_guarded] at htag)

end Known

/-- The commands that are known. -/
def Vocabulary.known (ns : String) (m : Module) : Vocabulary where
  Has := Known ns m
  grows hle h := ⟨h.legible, fun f hf => (h.callees f hf).grow hle, h.tags⟩
  control h := .of_isSilent (by cases h <;> rfl)
  fragment hi := .call (.fragment hi)
  guarded hg h := by cases hg <;> exact h.guarded rfl rfl

/-- All the commands are known. -/
abbrev AllKnown (ns : String) (m : Module) (n : Nat) (cs : List Command) : Prop :=
  (Vocabulary.known ns m).HasAll n cs

theorem allKnown_of_silent (h : All Command.isSilent cs) : AllKnown ns m n cs :=
  fun c hc => .of_isSilent (h c hc)

end Compile

end WasmPack
