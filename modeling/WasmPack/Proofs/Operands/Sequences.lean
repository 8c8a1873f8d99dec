/-
  WasmPack.Proofs.Operands.Sequences

  What code for operands calls, once modules have been loaded whose imports have
  the types that they are declared with: sequences apart from the operand stack,
  operations that take operands and leave others, and functions.
-/
import WasmPack.Proofs.Execution.Linked
import WasmPack.Proofs.Operands.Heights
import WasmPack.Proofs.Validation.Counts

namespace WasmPack

open Wasm

theorem Symbol.isCalm_of_isApart {q : Symbol} (hq : q.isApart = true) : q.isCalm = true := by
  cases q with
  | memory i op => rfl
  | routine r => exact hq
  | swapOutAll => rfl
  | tree base lo hi => rfl
  | _ => cases hq

theorem Symbol.Passes.isCalm {q : Symbol} {k l : Nat} (hq : q.Passes k l) : q.isCalm = true := by
  cases hq <;> rfl

theorem Symbol.Passes.isOwn {q : Symbol} {k l : Nat} (hq : q.Passes k l) : q.IsOwn := by
  cases hq <;> trivial

theorem Symbol.Passes.ne_exportFunc {q : Symbol} {k l : Nat} (hq : q.Passes k l) (name : String) :
    q ≠ .exportFunc name := by
  rintro rfl
  cases hq

namespace Compile

variable {ns : String} {s : Sequence} {h k l : Nat} {i max : UInt32} {limits : Limits}

/-- The commands have nothing to do with the operand stack. -/
abbrev Unstacked : List Command → Prop := All (·.isAbove 0)

/-! ## Memories -/

theorem unstacked_ownerCheck (i : UInt32) {r : Register} (hr : Writes.apart.register r = true) :
    Unstacked (ownerCheck ns i r) :=
  all_cons.2 ⟨by decide, all_cons.2 ⟨Bool.and_eq_true_iff.2
    ⟨List.all_eq_true.2 (List.forall_mem_singleton.2 hr), rfl⟩, all_nil⟩⟩

theorem unstacked_swapIn (i max : UInt32) : Unstacked (swapInCommands ns i max) := by
  unfold swapInCommands
  simp only [all_append, all_cons]
  exact ⟨⟨by decide, unstacked_ownerCheck i rfl⟩, by decide, by decide, by decide, by decide,
    rfl, rfl, by decide, all_nil⟩

theorem unstacked_swapOutAll (memories : Array MemoryEntry) :
    Unstacked (swapOutAllCommands ns memories) := by
  refine all_flatMap fun ⟨entry, i⟩ _ => ?_
  simp only
  split
  · exact all_append.2 ⟨unstacked_ownerCheck _ rfl, all_cons.2 ⟨rfl, all_nil⟩⟩
  · exact all_nil

/-- An operation on a memory that may have pages has nothing to do with the operand stack, unless
    it takes or leaves operands. -/
theorem unstacked_pagedOperation {op : MemoryOp} (hop : (Symbol.memory i op).isApart = true) :
    Unstacked (pagedOperation ns i max op) := by
  cases op with
  | swapIn => exact unstacked_swapIn i max
  | swapOut => exact all_cons.2 ⟨by decide, all_cons.2 ⟨rfl, all_nil⟩⟩
  | size => cases hop
  | grow => cases hop
  | _ =>
    intro c hc
    simp only [pagedOperation, accessCommands, growUncheckedCommands, growLoopCommands,
      List.mem_cons, List.not_mem_nil, or_false] at hc
    rcases hc with rfl | rfl | rfl | rfl | rfl | rfl | rfl | rfl <;> rfl

/-- The parts of a memory that hand over what they work on in registers. -/
theorem unstacked_memory (hs : s ∈ memorySequences ns i (.defined limits))
    (hsymbol : s.symbol.isApart = true) : Unstacked s.commands := by
  simp only [memorySequences] at hs
  split at hs
  · simp only [pagelessSequences, List.mem_cons, List.not_mem_nil, or_false] at hs
    obtain rfl | rfl | rfl | rfl := hs
    · exact all_cons.2 ⟨rfl, all_nil⟩
    · exact all_nil
    · cases hsymbol
    · cases hsymbol
  · obtain hs | hs | ⟨op, rfl⟩ := mem_paged hs
    · exact DispatchTree.forall_of_mem_sequences (fun _ _ => rfl) (fun _ _ _ => rfl) hs
    · exact DispatchTree.forall_of_mem_sequences (fun _ _ => rfl) (fun _ _ _ => rfl) hs
    · exact unstacked_pagedOperation hsymbol

theorem liftsAll_size (i : UInt32) : LiftsAll h (sizeCommands i) (h + 1) := by
  have hcount : (Command.execute [.store .result (.storage (.operand (-1)) .int)]
      (.getData (pagesPath i))).isAbove 1 = true := rfl
  exact .cons (.push _) (.one (.above (Command.isAbove_mono (Nat.le_add_left 1 h) hcount)))

theorem liftsAll_grow (i max : UInt32) : LiftsAll (h + 1) (growCommands i max) (h + 1) := by
  refine .above (k := 1) (fun c hc => ?_) (Nat.le_add_left 1 h)
  simp only [growCommands, List.mem_cons, List.not_mem_nil, or_false] at hc
  rcases hc with rfl | rfl | rfl | rfl | rfl | rfl | rfl | rfl | rfl <;> rfl

/-- The size of a memory, and how it grows. -/
theorem liftsAll_memory (hs : s ∈ memorySequences ns i (.defined limits))
    (hsymbol : s.symbol.Passes k l) : LiftsAll (h + k) s.commands (h + l) := by
  simp only [memorySequences] at hs
  split at hs
  · simp only [pagelessSequences, List.mem_cons, List.not_mem_nil, or_false] at hs
    obtain rfl | rfl | rfl | rfl := hs <;> cases hsymbol
    · exact .one (.push _)
    · exact .above (k := 1) (all_cons.2 ⟨rfl, all_cons.2 ⟨rfl, all_nil⟩⟩) (Nat.le_add_left 1 h)
  · rename_i hmax
    have hsize : 0 < (pageSpan (effectiveMax limits)).size :=
      Nat.pos_of_ne_zero fun hzero => hmax (UInt32.toNat_inj.1 hzero)
    have htree : ∀ {base lo hi}, s.symbol ≠ .tree base lo hi := by
      intro base lo hi heq
      rw [heq] at hsymbol
      cases hsymbol
    obtain hs | hs | ⟨op, rfl⟩ := mem_paged hs
    · obtain ⟨lo, hi, heq⟩ := tree_symbol hsize hs
      exact absurd heq htree
    · obtain ⟨lo, hi, heq⟩ := tree_symbol hsize hs
      exact absurd heq htree
    · cases hsymbol
      · exact liftsAll_size i
      · exact liftsAll_grow i _

/-! ## Globals and the library -/

/-- The sequences of a global. -/
theorem liftsAll_global {type : GlobalType} {init : Expr}
    (hs : s ∈ globalSequences i (.defined type init)) (hsymbol : s.symbol.Passes k l) :
    LiftsAll (h + k) s.commands (h + l) := by
  simp only [globalSequences, List.mem_cons, List.not_mem_nil, or_false] at hs
  obtain rfl | rfl := hs <;> cases hsymbol
  · exact .one (.pushFrom ⟨"globals", _, rfl⟩ rfl)
  · have hset : (Command.setFrom (globalPath i) top).isAbove 1 = true := rfl
    exact .cons (.above (Command.isAbove_mono (Nat.le_add_left 1 h) hset)) (.one .dropTop)

theorem unstacked_routine {r : Routine} (hr : r ≠ .load) :
    Unstacked (Library.routineCommands r) := by
  cases r <;> first | exact absurd rfl hr | decide

/-- Every sequence of the library but the one that prepares it has nothing to do with the operand
    stack. -/
theorem unstacked_library (hs : s ∈ Library.program.sequences) (hload : s.symbol ≠ .routine .load) :
    Unstacked s.commands := by
  obtain hs | hs := List.mem_append.1 hs
  · obtain ⟨r, -, rfl⟩ := List.mem_map.1 hs
    exact unstacked_routine fun hr => hload (congrArg Symbol.routine hr)
  · obtain hs | hs := List.mem_append.1 hs
    · exact DispatchTree.forall_of_mem_sequences (fun _ _ => rfl) (fun _ _ _ => rfl) hs
    · exact DispatchTree.forall_of_mem_sequences (fun _ _ => rfl) (fun _ _ _ => rfl) hs

/-! ## Modules -/

variable {m : Module} {p : Program}

/-- A sequence of a module that has nothing to do with the operand stack, or passes everything on to
    another module. -/
theorem Compiled.unstacked (c : Compiled ns m p) (hs : s ∈ p.sequences)
    (hsymbol : s.symbol.isApart = true) : Unstacked s.commands ∨
      ∃ i op source, s.symbol = .memory i op ∧ checkNamespace source.origin = .ok () ∧
        s.commands = [.call (.importMemory source op)] := by
  obtain ⟨i, entry, hentry, hmem⟩ | rfl | ⟨i, entry, -, hg⟩ :=
    c.calm_cases hs (Symbol.isCalm_of_isApart hsymbol)
  · cases entry with
    | defined limits => exact .inl (unstacked_memory hmem hsymbol)
    | imported source =>
      obtain ⟨op, -, rfl⟩ := List.mem_map.1 hmem
      exact .inr ⟨i, op, source, rfl, (originsOk_ofModule c.spacesOk).memories source hentry, rfl⟩
  · exact .inl (unstacked_swapOutAll _)
  · cases entry with
    | defined type init =>
      simp only [globalSequences, List.mem_cons, List.not_mem_nil, or_false] at hg
      obtain rfl | rfl := hg <;> cases hsymbol
    | imported type source =>
      obtain ⟨op, -, rfl⟩ := List.mem_map.1 hg
      cases hsymbol

/-- A sequence of a module that takes operands and leaves others, or passes everything on to another
    module. -/
theorem Compiled.liftsAll (c : Compiled ns m p) (hs : s ∈ p.sequences)
    (hsymbol : s.symbol.Passes k l) : (∀ h, LiftsAll (h + k) s.commands (h + l)) ∨
      (∃ i op source, s.symbol = .memory i op ∧ checkNamespace source.origin = .ok () ∧
        s.commands = [.call (.importMemory source op)]) ∨
      ∃ i op source, s.symbol = .global i op ∧ checkNamespace source.origin = .ok () ∧
        s.commands = [.call (.importGlobal source op)] := by
  obtain ⟨i, entry, hentry, hmem⟩ | rfl | ⟨i, entry, hentry, hg⟩ := c.calm_cases hs hsymbol.isCalm
  · cases entry with
    | defined limits => exact .inl fun h => liftsAll_memory hmem hsymbol
    | imported source =>
      obtain ⟨op, -, rfl⟩ := List.mem_map.1 hmem
      exact .inr (.inl
        ⟨i, op, source, rfl, (originsOk_ofModule c.spacesOk).memories source hentry, rfl⟩)
  · cases hsymbol
  · cases entry with
    | defined type init => exact .inl fun h => liftsAll_global hg hsymbol
    | imported type source =>
      obtain ⟨op, -, rfl⟩ := List.mem_map.1 hg
      exact .inr (.inr
        ⟨i, op, source, rfl, (originsOk_ofModule c.spacesOk).globals type source hentry, rfl⟩)

end Compile

namespace Machine

open Compile

/-- The function lies in the library or in a module, and has nothing to do with the operand stack;
    or it passes everything on to such a function. -/
inductive IsUnstacked (code : Code) (declares : String → IndexSpaces → Prop) : Function → Prop where
  | commands {ns : String} {cs : List Command}
      (hns : (∃ spaces, declares ns spaces) ∨ ns = sharedNamespace) (hcs : Unstacked cs) :
      IsUnstacked code declares ⟨ns, cs⟩
  | forwarded {ns : String} {q : Symbol}
      (h : ∀ g, code.function (q.qualifiedName ns) = .ok g → IsUnstacked code declares g) :
      IsUnstacked code declares ⟨ns, [.call q]⟩

/-- The function of a module takes `k` operands and leaves `l`, or passes everything on to such a
    function. -/
inductive IsPassing (code : Code) (declares : String → IndexSpaces → Prop) (k l : Nat) :
    Function → Prop where
  | commands {ns : String} {spaces : IndexSpaces} {cs : List Command} (hns : declares ns spaces)
      (hcs : ∀ h, LiftsAll (h + k) cs (h + l)) : IsPassing code declares k l ⟨ns, cs⟩
  | forwarded {ns : String} {q : Symbol}
      (h : ∀ g, code.function (q.qualifiedName ns) = .ok g → IsPassing code declares k l g) :
      IsPassing code declares k l ⟨ns, [.call q]⟩

/-- An imported function: its arguments are put back for a call of a function with a type of the same
    counts. -/
inductive IsForward (code : Code) (declares : String → IndexSpaces → Prop) (ns : String) :
    FuncEntry → Function → Prop where
  | mk {type : FuncType} {source : ExternalId}
      (h : ∀ g, code.function ((Symbol.importFunc source).qualifiedName ns) = .ok g →
        ∃ spaces index entry, declares g.ns spaces ∧ spaces.funcAt index = .ok entry ∧
          entry.type.counts = type.counts ∧
          g.commands = callSequence (.func index) entry.type.params.length) :
      IsForward code declares ns (.imported type source)
        ⟨ns, forwardCall (.importFunc source) type.params.length⟩

/-- Every name that modules mention and that means something means what it is made for. -/
structure Settled (code : Code) (declares : String → IndexSpaces → Prop) : Prop where
  apart : ∀ {ns}, (∃ spaces, declares ns spaces) ∨ ns = sharedNamespace → ∀ q : Symbol,
    q.isApart = true → ∀ f, code.function (q.qualifiedName ns) = .ok f → IsUnstacked code declares f
  member : ∀ name ∈ code.tags.members .swapOut, ∀ f, code.function name = .ok f →
    IsUnstacked code declares f
  passes : ∀ {ns spaces}, declares ns spaces → ∀ {q : Symbol} {k l}, q.Passes k l → ∀ {f},
    code.function (q.qualifiedName ns) = .ok f → IsPassing code declares k l f
  function : ∀ {ns spaces}, declares ns spaces → ∀ {index f},
    code.function ((Symbol.func index).qualifiedName ns) = .ok f → ∃ entry,
      spaces.funcAt index = .ok entry ∧
        (IsBody code ns spaces entry f ∨ IsForward code declares ns entry f)
  params : ∀ {ns spaces}, declares ns spaces → ∀ {index entry}, spaces.funcAt index = .ok entry →
    entry.type.params.length ≤ 2 ^ 31

end Machine

open Compile Machine

variable {parts : List Part} {ps : List Program} {p : Program} {ns : String} {m : Module}
  {f : Function} {spaces : IndexSpaces} {s : Sequence}

/-- Modules side by side, with or without the library: each has a namespace of its own, has no more
    sequences, and no more parameters of a function, than commands can count, and exports and imports
    no function under a name that is made for something else.  Where one of them imports a function
    of another, that has a type of the same counts. -/
structure Matching (parts : List Part) : Prop where
  apart : Part.Apart parts
  sequences : ∀ ns m p, .module ns m ∈ parts → compileModule ns m = .ok p →
    p.sequences.length ≤ 2 ^ 32
  params : ∀ ns m, .module ns m ∈ parts → ∀ type ∈ m.types, type.params.length ≤ 2 ^ 31
  free : ∀ ns m, .module ns m ∈ parts → ∀ e ∈ m.exports, e.kind = .func → ¬IsReserved e.name
  unreserved : ∀ {ns spaces index type source}, Part.Declares parts ns spaces →
    spaces.funcAt index = .ok (.imported type source) → ¬IsReserved source.member
  imports : ∀ {ns spaces index type source}, Part.Declares parts ns spaces →
    spaces.funcAt index = .ok (.imported type source) → ∀ {m spaces' e entry},
    .module source.origin m ∈ parts → IndexSpaces.ofModule m = .ok spaces' → e ∈ m.exports →
    e.kind = .func → e.name = source.member → spaces'.funcAt e.index = .ok entry →
    entry.type.counts = type.counts

namespace Matching

variable (h : Matching parts) (hps : Part.Give parts ps)

include h hps

/-- What a name means is a sequence that it is made for. -/
theorem exists_symbol (hns : checkNamespace ns = .ok ()) {q : Symbol} (ho : q.IsOwn)
    (hq : ∀ name, q = .exportFunc name → ¬IsReserved name)
    (hf : (ps.foldl Code.addProgram {}).function (q.qualifiedName ns) = .ok f) :
    ∃ m p, .module ns m ∈ parts ∧ ∃ _ : Compiled ns m p, ∃ s ∈ p.sequences, s.symbol = q ∧
      f = ⟨ns, s.commands⟩ := by
  obtain ⟨m, p, hm, c, s, hs, hname, rfl⟩ := h.apart.exists_module hps hns ho hf
  rw [Program.nameOf, c.ns_eq] at hname
  refine ⟨m, p, hm, c, s, hs, Symbol.qualifiedName_inj (c.isOwn hs) ho (fun name hsymbol => ?_) hq
    hname, rfl⟩
  obtain ⟨e, he, hkind, rfl, -⟩ := c.exists_export hs hsymbol
  exact h.free ns m hm e he hkind

/-- The same for a module that is known. -/
theorem exists_own (hns : Part.Declares parts ns spaces) {q : Symbol} (ho : q.IsOwn)
    (hq : ∀ name, q ≠ .exportFunc name)
    (hf : (ps.foldl Code.addProgram {}).function (q.qualifiedName ns) = .ok f) :
    ∃ m p, .module ns m ∈ parts ∧ ∃ c : Compiled ns m p, c.spaces = spaces ∧
      ∃ s ∈ p.sequences, s.symbol = q ∧ f = ⟨ns, s.commands⟩ := by
  obtain ⟨m, hm, hspaces⟩ := hns
  obtain ⟨p, -, hprogram⟩ := hps.exists_program hm
  obtain ⟨c⟩ := exists_compiled hprogram
  obtain ⟨m', p', hm', c', s, hs, hsymbol, rfl⟩ :=
    h.exists_symbol hps c.namespaceOk ho (fun name hname => absurd hname (hq name)) hf
  obtain rfl := h.apart ns m m' hm hm'
  exact ⟨m, p', hm, c', Except.ok.inj (c'.spacesOk.symm.trans hspaces), s, hs, hsymbol, rfl⟩

/-- Under the name of an operation on an exported memory, it is passed on to a memory. -/
theorem exists_exportMemory {source : ExternalId} {op : MemoryOp}
    (horigin : checkNamespace source.origin = .ok ())
    (hf : (ps.foldl Code.addProgram {}).function ((Symbol.importMemory source op).qualifiedName ns) =
      .ok f) :
    ∃ spaces i, Part.Declares parts f.ns spaces ∧ f.commands = [.call (.memory i op)] := by
  obtain ⟨m, p, hm, c, s, hs, hsymbol, rfl⟩ := h.exists_symbol hps horigin
    (q := .exportMemory source.member op) trivial (fun _ h => nomatch h) hf
  obtain ⟨i, hcommands⟩ := c.exists_exportMemory hs hsymbol
  exact ⟨c.spaces, i, ⟨m, hm, c.spacesOk⟩, hcommands⟩

/-- Under the name of an operation on an exported global, it is passed on to a global. -/
theorem exists_exportGlobal {source : ExternalId} {op : GlobalOp}
    (horigin : checkNamespace source.origin = .ok ())
    (hf : (ps.foldl Code.addProgram {}).function ((Symbol.importGlobal source op).qualifiedName ns) =
      .ok f) :
    ∃ spaces i, Part.Declares parts f.ns spaces ∧ f.commands = [.call (.global i op)] := by
  obtain ⟨m, p, hm, c, s, hs, hsymbol, rfl⟩ := h.exists_symbol hps horigin
    (q := .exportGlobal source.member op) trivial (fun _ h => nomatch h) hf
  obtain ⟨i, hcommands⟩ := c.exists_exportGlobal hs hsymbol
  exact ⟨c.spaces, i, ⟨m, hm, c.spacesOk⟩, hcommands⟩

theorem isUnstacked (hns : (∃ spaces, Part.Declares parts ns spaces) ∨ ns = sharedNamespace)
    {q : Symbol} (hq : q.isApart = true)
    (hf : (ps.foldl Code.addProgram {}).function (q.qualifiedName ns) = .ok f) :
    IsUnstacked (ps.foldl Code.addProgram {}) (Part.Declares parts) f := by
  have hshared : InNamespace sharedNamespace (q.qualifiedName ns) →
      q.qualifiedName ns ≠ Part.loadName →
        IsUnstacked (ps.foldl Code.addProgram {}) (Part.Declares parts) f := by
    intro hname hne
    obtain ⟨s, hs, hload, rfl⟩ := SelfContained.exists_shared hps h.apart hname hne hf
    exact .commands (.inr rfl) (unstacked_library hs hload)
  obtain ⟨ho, hi⟩ | ⟨hname, hne⟩ := Symbol.calm_cases (Symbol.isCalm_of_isApart hq) ns
  · obtain ⟨spaces, hns⟩ | rfl := hns
    · have hne : ∀ name, q ≠ .exportFunc name := by
        rintro name rfl
        cases hq
      obtain ⟨m, p, hm, c, -, s, hs, rfl, rfl⟩ := h.exists_own hps hns ho hne hf
      obtain hcs | ⟨i, op, source, hsymbol, horigin, hcs⟩ := c.unstacked hs hq
      · exact .commands (.inl ⟨spaces, hns⟩) hcs
      · rw [hcs]
        refine .forwarded fun g hg => ?_
        obtain ⟨spaces', j, hns', hcommands⟩ := h.exists_exportMemory hps horigin hg
        obtain ⟨ns', cs⟩ := g
        obtain rfl : cs = _ := hcommands
        rw [hsymbol] at hq
        exact .commands (.inl ⟨spaces', hns'⟩) (all_cons.2 ⟨hq, all_nil⟩)
    · exact hshared (ho.inNamespace _) (Symbol.internalName_ne_loadName hi)
  · exact hshared hname hne

theorem isPassing {k l : Nat} (hns : Part.Declares parts ns spaces) {q : Symbol}
    (hq : q.Passes k l)
    (hf : (ps.foldl Code.addProgram {}).function (q.qualifiedName ns) = .ok f) :
    IsPassing (ps.foldl Code.addProgram {}) (Part.Declares parts) k l f := by
  obtain ⟨m, p, hm, c, -, s, hs, rfl, rfl⟩ := h.exists_own hps hns hq.isOwn hq.ne_exportFunc hf
  -- What passes on to another module comes to an operation of the same kind.
  have hone : ∀ {ns' spaces' q'}, Part.Declares parts ns' spaces' → Symbol.Passes q' k l →
      IsPassing (ps.foldl Code.addProgram {}) (Part.Declares parts) k l ⟨ns', [.call q']⟩ :=
    fun hns' hq' => .commands hns' fun _ => .one (.operation hq')
  obtain hcs | ⟨i, op, source, hsymbol, horigin, hcs⟩ | ⟨i, op, source, hsymbol, horigin, hcs⟩ :=
    c.liftsAll hs hq
  · exact .commands hns hcs
  · rw [hcs]
    refine .forwarded fun g hg => ?_
    obtain ⟨spaces', j, hns', hcommands⟩ := h.exists_exportMemory hps horigin hg
    obtain ⟨ns', cs⟩ := g
    obtain rfl : cs = _ := hcommands
    rw [hsymbol] at hq
    cases hq with
    | size => exact hone hns' (.size j)
    | grow => exact hone hns' (.grow j)
  · rw [hcs]
    refine .forwarded fun g hg => ?_
    obtain ⟨spaces', j, hns', hcommands⟩ := h.exists_exportGlobal hps horigin hg
    obtain ⟨ns', cs⟩ := g
    obtain rfl : cs = _ := hcommands
    rw [hsymbol] at hq
    cases hq with
    | get => exact hone hns' (.get j)
    | set => exact hone hns' (.set j)

/-- The sequence of a function is its body, or passes its arguments on. -/
theorem isBody_or_isForward (hm : .module ns m ∈ parts) (c : Compiled ns m p) {index : UInt32}
    (hs : s ∈ p.sequences) (hsymbol : s.symbol = .func index) :
    ∃ entry, c.spaces.funcAt index = .ok entry ∧
      (IsBody (ps.foldl Code.addProgram {}) ns c.spaces entry ⟨ns, s.commands⟩ ∨
        IsForward (ps.foldl Code.addProgram {}) (Part.Declares parts) ns entry
          ⟨ns, s.commands⟩) := by
  have hsize := h.sequences ns m p hm c.compile_eq
  obtain ⟨entry, pool, pool', hentry, hcommands, hpool⟩ := c.exists_commands hsize hs hsymbol
  refine ⟨entry, hentry, ?_⟩
  cases entry with
  | defined type locals body =>
    exact .inl (.mk hcommands ((h.apart.resolved hps hm c hsize).stretch (Nat.zero_le _) hpool))
  | imported type source =>
    obtain ⟨hforward, -⟩ := gen_pure_eq_ok.1 hcommands
    rw [hforward]
    refine .inr (.mk fun g hg => ?_)
    have horigin := (originsOk_ofModule c.spacesOk).funcs type source
      (Array.mem_of_getElem? (entryAt_eq_ok.1 hentry))
    have hns : Part.Declares parts ns c.spaces := ⟨m, hm, c.spacesOk⟩
    have hpublic : ∀ name, Symbol.exportFunc source.member = .exportFunc name → ¬IsReserved name := by
      rintro _ ⟨⟩
      exact h.unreserved hns hentry
    obtain ⟨m', p', hm', c', t, ht, htsymbol, rfl⟩ :=
      h.exists_symbol hps horigin (q := .exportFunc source.member) trivial hpublic hg
    obtain ⟨e, he, hkind, hname, hcall⟩ := c'.exists_export ht htsymbol
    obtain ⟨entry, hexported⟩ := exists_exported c'.spacesOk he hkind
    have hcount : paramCount c'.spaces e.index = entry.type.params.length := by
      rw [paramCount, entryAt_eq_ok.1 hexported]
    rw [hcount] at hcall
    exact ⟨c'.spaces, e.index, entry, ⟨m', hm', c'.spacesOk⟩, hexported,
      h.imports hns hentry hm' c'.spacesOk he hkind hname hexported, hcall⟩

/-- **Names mean what they are made for**, once such modules have been loaded. -/
theorem settled : Settled (ps.foldl Code.addProgram {}) (Part.Declares parts) where
  apart hns _ hq _ hf := h.isUnstacked hps hns hq hf
  member name hname f hf := by
    obtain ⟨ns, spaces, hns, rfl⟩ := SelfContained.exists_member hps hname
    exact h.isUnstacked hps (.inl ⟨spaces, hns⟩) (q := .swapOutAll) rfl hf
  passes hns _ _ _ hq _ hf := h.isPassing hps hns hq hf
  function := by
    rintro ns spaces hns index f hf
    obtain ⟨m, p, hm, c, rfl, s, hs, hsymbol, rfl⟩ :=
      h.exists_own hps hns (q := .func index) trivial (fun _ h => nomatch h) hf
    exact h.isBody_or_isForward hps hm c hs hsymbol
  params := by
    rintro ns spaces ⟨m, hm, hspaces⟩ index entry hentry
    exact h.params ns m hm _ (type_mem_of_funcAt hspaces hentry)

end Matching

end WasmPack
