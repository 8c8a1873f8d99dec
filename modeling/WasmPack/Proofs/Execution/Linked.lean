/-
  WasmPack.Proofs.Execution.Linked

  What names mean once modules without imports have been loaded, each in a
  namespace of its own: bodies of functions with their fragments, sequences that
  leave control flow alone, and the calls that exported functions put in the
  place of others that have the same names.
-/
import WasmPack.Proofs.Compile.Calm
import WasmPack.Proofs.Compile.Distinct
import WasmPack.Proofs.Compile.Emitted
import WasmPack.Proofs.Compile.Functions
import WasmPack.Proofs.Compile.Parts
import WasmPack.Proofs.Compile.Spaces
import WasmPack.Proofs.Execution.Along

namespace WasmPack

namespace Machine

open Compile

variable {code : Code} {modules : String → Prop} {exported : Function → Prop} {few : Prop}
  {ns : String} {f : Function}

/-! ## Beside functions -/

/-- What the name of anything but a function or a fragment means: a sequence that leaves control
    flow alone; what passes an operation on to another module; or what an export has put there. -/
inductive Beside (code : Code) (modules : String → Prop) (exported : Function → Prop) :
    Function → Prop where
  | calm {ns : String} {cs : List Command} (hns : modules ns ∨ ns = sharedNamespace)
      (h : Calm cs) : Beside code modules exported ⟨ns, cs⟩
  | forwarded {ns : String} {symbol : Symbol} (hsymbol : symbol.isForwarded = true)
      (h : ∀ f, code.function (symbol.qualifiedName ns) = .ok f → Beside code modules exported f) :
      Beside code modules exported ⟨ns, [.call symbol]⟩
  | exported {f : Function} (h : exported f) : Beside code modules exported f

/-- Every name of that kind that modules mention, and that means something, means what it is made
    for. -/
structure Surroundings (code : Code) (modules : String → Prop) (exported : Function → Prop) :
    Prop where
  beside : ∀ {ns}, modules ns ∨ ns = sharedNamespace → ∀ symbol : Symbol, symbol.isCalm = true →
    ∀ f, code.function (symbol.qualifiedName ns) = .ok f → Beside code modules exported f
  member : ∀ name ∈ code.tags.members .swapOut, ∀ f, code.function name = .ok f →
    Beside code modules exported f

/-- Calm code keeps what does not depend on what it may write, as long as what is exported does. -/
theorem Surroundings.triple_beside {ok : String → Command → State → Prop} {n : Nat}
    {I : State → Prop} (hw : Surroundings code modules exported) (hI : Ignores .calm I)
    (hok : ∀ ns c σ, c.isUnframed = true → I σ → ok ns c σ)
    (hexported : ∀ m ≤ n, ∀ f, exported f → Triple code ok m f.ns f.commands I I)
    (hf : Beside code modules exported f) : Triple code ok n f.ns f.commands I I := by
  -- The induction is on the number of commands: what is called has fewer left.
  induction n using Nat.strongRecOn generalizing f with
  | _ n ih =>
    cases hf with
    | exported h => exact hexported n (Nat.le_refl n) f h
    | @forwarded ns symbol hsymbol h =>
      cases n with
      | zero => exact fun s hs => Along.zero
      | succ n =>
        refine .call (fun σ hσ => hok ns _ σ ?_ hσ) fun f hfound => ih n (Nat.lt_succ_self n)
          (fun m hm => hexported m (Nat.le_succ_of_le hm)) (h f hfound)
        simp [Command.isUnframed, Command.staysIn, Command.isWithin, Command.callsWithin,
          Command.paths, Calls.unframed, hsymbol]
    | @calm ns cs hns hcs =>
      show Triple code ok n ns cs I I
      induction cs with
      | nil => exact .nil fun _ hσ => hσ
      | cons c cs ihcs =>
        obtain ⟨hc, hcs⟩ := all_cons.1 hcs
        refine .cons ?_ (ihcs hcs)
        cases n with
        | zero => exact fun s hs => Along.zero
        | succ n =>
          have hcallee : ∀ {f}, Beside code modules exported f →
              Triple code ok n f.ns f.commands I I := fun hf => ih n (Nat.lt_succ_self n)
            (fun m hm => hexported m (Nat.le_succ_of_le hm)) hf
          refine .calls (Command.isWithin_of_staysIn hc) hI (Command.callsWithin_of_staysIn hc)
            (fun σ hσ => hok ns c σ (Command.isUnframed_of_isCalm hc) hσ)
            (fun symbol hsymbol f hfound => ?_) fun tag htag name hname f hfound => ?_
          · exact hcallee (hw.beside hns symbol hsymbol f hfound)
          · obtain rfl := of_decide_eq_true htag
            exact hcallee (hw.member name hname f hfound)

/-- What is exported may be more than what is said. -/
theorem Beside.mono {exported' : Function → Prop} (hf : Beside code modules exported f)
    (h : ∀ f, exported f → exported' f) : Beside code modules exported' f := by
  induction hf with
  | calm hns hcs => exact .calm hns hcs
  | forwarded hsymbol _ ih => exact .forwarded hsymbol ih
  | exported hf => exact .exported (h _ hf)

theorem Surroundings.mono {exported' : Function → Prop} (hw : Surroundings code modules exported)
    (h : ∀ f, exported f → exported' f) : Surroundings code modules exported' :=
  ⟨fun hns symbol hsymbol f hf => (hw.beside hns symbol hsymbol f hf).mono h,
    fun name hname f hf => (hw.member name hname f hf).mono h⟩

/-! ## Functions -/

/-- What an exported function has put under its name: a call of a function, with the arguments that
    are found on the operand stack. -/
inductive PassesOn (modules : String → Prop) : Function → Prop where
  | mk {ns : String} (hns : modules ns) (index : UInt32) (params : Nat) :
      PassesOn modules ⟨ns, callSequence (.func index) params⟩

/-- What the name of a function means: its body, with the fragments of the body in the code; what
    passes the arguments on to a function of another module; or what a function that is exported
    under that name has put there. -/
inductive Callable (code : Code) (modules : String → Prop) (few : Prop) : Function → Prop where
  | body {ns : String} {spaces : IndexSpaces} {type : Wasm.FuncType} {locals : List Wasm.ValueType}
      {body : Wasm.Expr} {pool pool' : Pool} {cs : List Command} (hns : modules ns)
      (hfew : few → Wasm.Instr.allFit body = true)
      (h : lowerFunction spaces type locals body pool = .ok (cs, pool'))
      (hr : Resolved code ns pool pool') : Callable code modules few ⟨ns, cs⟩
  | imported {ns : String} (hns : modules ns) (source : ExternalId) (params : Nat)
      (h : ∀ f, code.function ((Symbol.importFunc source).qualifiedName ns) = .ok f →
        Callable code modules few f) :
      Callable code modules few ⟨ns, forwardCall (.importFunc source) params⟩
  | exported {f : Function} (h : PassesOn modules f) : Callable code modules few f

/-- Every name that modules mention and that means something means what it is made for. -/
structure World (code : Code) (modules : String → Prop) (few : Prop) : Prop extends
    Surroundings code modules (PassesOn modules) where
  function : ∀ {ns}, modules ns → ∀ index f,
    code.function ((Symbol.func index).qualifiedName ns) = .ok f → Callable code modules few f

open Wasm

variable {declares : String → IndexSpaces → Prop} {spaces : IndexSpaces}

/-! ## Linked code -/

/-- The body of a function, with the fragments of the body in the code. -/
inductive IsBody (code : Code) (ns : String) (spaces : IndexSpaces) :
    FuncEntry → Function → Prop where
  | mk {type : FuncType} {locals : List ValueType} {body : Expr} {pool pool' : Pool}
      {cs : List Command} (h : lowerFunction spaces type locals body pool = .ok (cs, pool'))
      (hr : Resolved code ns pool pool') : IsBody code ns spaces (.defined type locals body) ⟨ns, cs⟩

/-- The call of a function of a module that an export of the module consists of. -/
inductive IsExport (declares : String → IndexSpaces → Prop) : Function → Prop where
  | mk {ns : String} {spaces : IndexSpaces} {index : UInt32} {entry : FuncEntry}
      (hns : declares ns spaces) (hentry : spaces.funcAt index = .ok entry) :
      IsExport declares ⟨ns, callSequence (.func index) entry.type.params.length⟩

/-- Every name that modules without imports mention and that means something means what it is made
    for, or what an export has put in its place. -/
structure Linked (code : Code) (declares : String → IndexSpaces → Prop) : Prop extends
    Surroundings code (fun ns => ∃ spaces, declares ns spaces) (IsExport declares) where
  function : ∀ {ns spaces}, declares ns spaces → ∀ index f,
    code.function ((Symbol.func index).qualifiedName ns) = .ok f →
    (∃ entry, spaces.funcAt index = .ok entry ∧ IsBody code ns spaces entry f) ∨
      IsExport declares f
  params : ∀ {ns spaces}, declares ns spaces → ∀ {index entry},
    spaces.funcAt index = .ok entry → entry.type.params.length < 2 ^ 32

theorem IsExport.passesOn (h : IsExport declares f) :
    PassesOn (fun ns => ∃ spaces, declares ns spaces) f := by
  cases h with
  | mk hns hentry => exact .mk ⟨_, hns⟩ _ _

/-- Linked code is a world of functions. -/
theorem Linked.world (h : Linked code declares)
    (hfew : few → ∀ ns spaces index type locals body, declares ns spaces →
      spaces.funcAt index = .ok (.defined type locals body) → Instr.allFit body = true) :
    World code (fun ns => ∃ spaces, declares ns spaces) few where
  toSurroundings := h.toSurroundings.mono fun _ => IsExport.passesOn
  function := by
    rintro ns ⟨spaces, hns⟩ index f hf
    obtain ⟨entry, hentry, hbody⟩ | hexport := h.function hns index f hf
    · cases hbody with
      | mk hlower hr =>
        exact .body ⟨spaces, hns⟩ (fun hf => hfew hf ns spaces index _ _ _ hns hentry) hlower hr
    · exact .exported hexport.passesOn

end Machine

open Compile Machine Wasm

variable {parts : List Part} {ps : List Program} {p : Program} {ns : String} {m : Module}
  {s : Sequence} {f : Function}

/-! ## Names -/

/-- The names of calm sequences are internal ones of the module, or lie in the shared namespace and
    are not that of what prepares the library. -/
theorem Symbol.calm_cases {q : Symbol} (hq : q.isCalm = true) (ns : String) :
    (q.IsOwn ∧ q.IsInternal) ∨
      (InNamespace sharedNamespace (q.qualifiedName ns) ∧ q.qualifiedName ns ≠ Part.loadName) := by
  cases q with
  | memory i op => exact .inl ⟨trivial, List.cons_ne_nil _ _⟩
  | swapOutAll => exact .inl ⟨trivial, List.cons_ne_nil _ _⟩
  | global i op => exact .inl ⟨trivial, List.cons_ne_nil _ _⟩
  | tree base lo hi =>
    cases base with
    | swapIn i => exact .inl ⟨trivial, List.cons_ne_nil _ _⟩
    | swapOut i => exact .inl ⟨trivial, List.cons_ne_nil _ _⟩
    | byteGet =>
      exact .inr ⟨IsShared.inNamespace (s := .tree .byteGet lo hi) trivial ns,
        (routine_name_ne_tree_name (.inl rfl) ns .load lo hi).symm⟩
    | byteSet =>
      exact .inr ⟨IsShared.inNamespace (s := .tree .byteSet lo hi) trivial ns,
        (routine_name_ne_tree_name (.inr rfl) ns .load lo hi).symm⟩
  | routine r =>
    refine .inr ⟨IsShared.inNamespace (s := .routine r) trivial ns, fun h => ?_⟩
    have hlist := congrArg String.toList h
    rw [Part.loadName, toList_routine_name, toList_routine_name, List.append_cancel_left_eq,
      String.toList_inj, Routine.name_inj] at hlist
    exact of_decide_eq_true hq hlist
  | _ => cases hq

/-- No internal name is that of what prepares the library. -/
theorem Symbol.internalName_ne_loadName {q : Symbol} (hq : q.IsInternal) :
    q.qualifiedName sharedNamespace ≠ Part.loadName := by
  intro h
  obtain ⟨path, hpath, hslashed⟩ := exists_internal hq sharedNamespace
  have hload : path = Routine.load.name := by
    rw [hpath, ← String.toList_inj, Part.loadName, qualifiedName, toList_internal, toList_internal,
      List.append_cancel_left_eq, List.cons.injEq, List.append_cancel_left_eq, String.toList_inj] at h
    exact h.2
  have hone : slashed [Routine.load.name] = Routine.load.name.toList ++ ['/'] := by decide
  rw [hload, ← hone, slashed_inj (by decide) q.slash_not_mem_segments] at hslashed
  rcases q with _ | _ | _ | _ | _ | ⟨_ | _ | _ | _, _, _⟩ | _ | _ | _ | _ | _ | _ | _ | _ <;>
    exact absurd hslashed (by unfold segments; simp)

namespace Compile

/-- A sequence with the symbol of a calm one belongs to a memory or a global of the module, or stores
    the window. -/
theorem Compiled.calm_cases (c : Compiled ns m p) (hs : s ∈ p.sequences)
    (h : s.symbol.isCalm = true) :
    (∃ i, ∃ entry ∈ c.spaces.memories, s ∈ memorySequences ns i entry) ∨
      s = ⟨.swapOutAll, swapOutAllCommands ns c.spaces.memories⟩ ∨
      ∃ i, ∃ entry ∈ c.spaces.globals, s ∈ globalSequences i entry := by
  cases c.kind hs with
  | function hf _ =>
    obtain ⟨⟨i, hi⟩, -⟩ := hf
    rw [hi] at h
    cases h
  | memory entry i hi hmem => exact .inl ⟨_, entry, Array.mem_of_getElem? hi, hmem⟩
  | swapOutAll hall => exact .inr (.inl hall)
  | global hg =>
    obtain ⟨⟨entry, i⟩, hi, hg⟩ := List.mem_flatMap.1 hg
    rw [List.mem_zipIdx_iff_getElem?] at hi
    exact .inr (.inr ⟨_, entry, Array.mem_toList_iff.1 (List.mem_of_getElem? hi), hg⟩)
  | exported he => exact absurd h (Bool.eq_false_iff.1 (isCalm_of_mem_exports he))
  | fragment i hi _ =>
    rw [hi] at h
    cases h
  | init rest _ _ hs =>
    rw [hs] at h
    cases h

/-- What a sequence with the symbol of a calm one does, in a module without imports. -/
theorem Compiled.calm_of_symbol (c : Compiled ns m p) (hown : OwnOnly m c.spaces)
    (hs : s ∈ p.sequences) (h : s.symbol.isCalm = true) : Calm s.commands := by
  obtain ⟨i, entry, hentry, hmem⟩ | rfl | ⟨i, entry, hentry, hg⟩ := c.calm_cases hs h
  · obtain ⟨limits, rfl⟩ := hown.memories entry hentry
    exact calm_memory hmem
  · exact calm_swapOutAll _
  · obtain ⟨type, init, rfl⟩ := hown.globals entry hentry
    exact calm_global hg

/-- The sequence of a function has the commands of its entry. -/
theorem Compiled.exists_commands (c : Compiled ns m p) (hsize : p.sequences.length ≤ 2 ^ 32)
    {index : UInt32} (hs : s ∈ p.sequences) (hsymbol : s.symbol = .func index) :
    ∃ entry pool pool', c.spaces.funcAt index = .ok entry ∧
      funcCommands c.spaces entry pool = .ok (s.commands, pool') ∧ Extends pool' c.pool := by
  obtain ⟨i, hi⟩ := List.mem_iff_getElem?.1 (c.mem_functions hs hsymbol)
  obtain ⟨entry, pool, pool', hentry, heq, hcommands, hpool⟩ := c.exists_entry hi
  have hlength := congrArg (·.sequences.length) c.program
  simp only [List.length_append] at hlength
  have hindex : index.toNat = i := by
    have hlt := (List.getElem?_eq_some_iff.1 hi).1
    rw [hsymbol, Symbol.func.injEq] at heq
    rw [heq]
    exact UInt32.toNat_ofNat_of_lt' (by simp only [UInt32.size]; omega)
  exact ⟨entry, pool, pool', entryAt_eq_ok.2 (hindex ▸ hentry), hcommands, hpool⟩

end Compile

/-! ## Parts -/

namespace Part.Apart

variable (h : Part.Apart parts) (hps : Part.Give parts ps)

include h hps

/-- What a name in a namespace means comes from a sequence of a module with that namespace. -/
theorem exists_module (hns : checkNamespace ns = .ok ()) {q : Symbol} (ho : q.IsOwn)
    (hf : (ps.foldl Code.addProgram {}).function (q.qualifiedName ns) = .ok f) :
    ∃ m p, .module ns m ∈ parts ∧ ∃ _ : Compiled ns m p, ∃ s ∈ p.sequences,
      p.nameOf s = q.qualifiedName ns ∧ f = ⟨ns, s.commands⟩ := by
  obtain ⟨hshared, hcolon⟩ := checkNamespace_eq_ok hns
  obtain ⟨p, hp, hpns, s, hs, hname, rfl⟩ :=
    (h.modular hps).exists_sequence (ho.inNamespace ns) hcolon hf
  obtain ⟨part, hpart, hprogram⟩ := hps.exists_part hp
  cases part with
  | library =>
    cases hprogram
    exact absurd hpns.symm hshared
  | module ns' m =>
    obtain ⟨c⟩ := exists_compiled hprogram
    obtain rfl : ns' = ns := c.ns_eq.symm.trans hpns
    exact ⟨m, p, hpart, c, s, hs, hname, by rw [functionOf, hpns]⟩

/-- What a name of a module means comes from a sequence of the module with that name. -/
theorem exists_named (hm : .module ns m ∈ parts) (c : Compiled ns m p) {q : Symbol} (ho : q.IsOwn)
    (hf : (ps.foldl Code.addProgram {}).function (q.qualifiedName ns) = .ok f) :
    ∃ s ∈ p.sequences, p.nameOf s = q.qualifiedName ns ∧ f = ⟨ns, s.commands⟩ := by
  obtain ⟨m', p', hm', c', s, hs, hname, rfl⟩ := h.exists_module hps c.namespaceOk ho hf
  obtain rfl := h ns m m' hm hm'
  obtain rfl : p' = p := Except.ok.inj (c'.compile_eq.symm.trans c.compile_eq)
  exact ⟨s, hs, hname, rfl⟩

/-- The fragments of a module are found. -/
theorem resolved (hm : .module ns m ∈ parts) (c : Compiled ns m p)
    (hsize : p.sequences.length ≤ 2 ^ 32) : Resolved (ps.foldl Code.addProgram {}) ns #[] c.pool := by
  intro i cs _ hcs
  obtain ⟨p', hp', hprogram⟩ := hps.exists_program hm
  obtain rfl : p' = p := Except.ok.inj (hprogram.symm.trans c.compile_eq)
  have hsplit := congrArg Program.sequences c.program
  have hlength := congrArg List.length hsplit
  rw [List.append_assoc] at hsplit
  simp only [List.length_append, fragmentSequences, List.length_map, List.length_zipIdx] at hlength
  have hmem : ⟨.fragment (UInt32.ofNat i), cs⟩ ∈ fragmentSequences c.pool := by
    refine List.mem_map.2 ⟨(cs, i), ?_, rfl⟩
    rw [List.mem_zipIdx_iff_getElem?]
    simpa using hcs
  have hinternal : (Symbol.fragment (UInt32.ofNat i)).IsInternal :=
    List.cons_ne_nil _ _
  have hname : ∀ t : Sequence, p'.nameOf t = t.symbol.qualifiedName ns := fun t => by
    rw [Program.nameOf, c.ns_eq]
  -- Fragments come behind everything but what prepares the module, so their names are theirs.
  have hfind : (ps.foldl Code.addProgram {}).function _ = _ :=
    function_of_last hp' hsplit (List.mem_append_left _ hmem) (hname _)
      (fun s hs hs' => ?_) fun q hq hq' => ?_
  · rw [functionOf, c.ns_eq] at hfind
    exact hfind
  · rw [hname] at hs'
    obtain hs | hs := List.mem_append.1 hs
    · have hsymbol : s.symbol = .fragment (UInt32.ofNat i) := by
        obtain ⟨x, -, rfl⟩ := List.mem_map.1 hs
        exact Symbol.internalName_inj (List.cons_ne_nil _ _) hinternal hs'
      have hpool : c.pool.toList.length ≤ 2 ^ 32 := by omega
      exact congrArg (functionOf p')
        (List.inj_on_of_nodup_map (nodup_fragments c.pool hpool) hs hmem hsymbol)
    · rw [List.mem_singleton.1 hs] at hs'
      exact absurd hs'.symm (Symbol.ne_internalName hinternal (t := .init) trivial
        (fun h => h rfl) (fun _ h => by cases h) ns)
  · obtain ⟨s, hs, hs'⟩ := hq'
    have hmodular := h.modular hps
    have hq' := hmodular.named q hq s hs
    rw [hs'] at hq'
    refine hmodular.apart q hq p' hp' (hq'.unique ?_ (hmodular.colonless q hq)
      (hmodular.colonless p' hp'))
    rw [c.ns_eq]
    exact Symbol.IsOwn.inNamespace (s := .fragment (UInt32.ofNat i)) trivial ns

end Part.Apart

/-- Modules side by side, with or without the library: each has a namespace of its own, imports
    nothing, and has no more sequences, and no more parameters of a function, than can be counted. -/
structure SelfContained (parts : List Part) : Prop where
  apart : Part.Apart parts
  imports : ∀ ns m, .module ns m ∈ parts → m.imports = []
  sequences : ∀ ns m p, .module ns m ∈ parts → compileModule ns m = .ok p →
    p.sequences.length ≤ 2 ^ 32
  params : ∀ ns m, .module ns m ∈ parts → ∀ type ∈ m.types, type.params.length < 2 ^ 32

/-- The module of a namespace has these index spaces. -/
def Part.Declares (parts : List Part) (ns : String) (spaces : IndexSpaces) : Prop :=
  ∃ m, .module ns m ∈ parts ∧ IndexSpaces.ofModule m = .ok spaces

namespace SelfContained

/-- A module alone. -/
theorem single (himports : m.imports = [])
    (hsequences : ∀ p, compileModule ns m = .ok p → p.sequences.length ≤ 2 ^ 32)
    (hparams : ∀ type ∈ m.types, type.params.length < 2 ^ 32) :
    SelfContained [.module ns m] := by
  refine ⟨fun _ _ _ h h' => ?_, fun _ _ h => ?_, fun _ _ p h => ?_, fun _ _ h => ?_⟩
  · cases List.mem_singleton.1 h
    cases List.mem_singleton.1 h'
    rfl
  · cases List.mem_singleton.1 h
    exact himports
  · cases List.mem_singleton.1 h
    exact hsequences p
  · cases List.mem_singleton.1 h
    exact hparams

variable (h : SelfContained parts) (hps : Part.Give parts ps)

include h hps

/-- What an internal name of a module means comes from a sequence that it is made for, or from an
    export. -/
theorem exists_own (hm : .module ns m ∈ parts) (c : Compiled ns m p) {q : Symbol} (ho : q.IsOwn)
    (hi : q.IsInternal)
    (hf : (ps.foldl Code.addProgram {}).function (q.qualifiedName ns) = .ok f) :
    (∃ s ∈ p.sequences, s.symbol = q ∧ f = ⟨ns, s.commands⟩) ∨
      IsExport (Part.Declares parts) f := by
  obtain ⟨s, hs, hname, rfl⟩ := h.apart.exists_named hps hm c ho hf
  obtain hsymbol | ⟨name, hsymbol⟩ := c.named_internal hs hi hname
  · exact .inl ⟨s, hs, hsymbol, rfl⟩
  · obtain ⟨e, he, hkind, -, hcommands⟩ := c.exists_export hs hsymbol
    obtain ⟨entry, hentry⟩ := exists_exported c.spacesOk he hkind
    have hcount : paramCount c.spaces e.index = entry.type.params.length := by
      rw [paramCount, entryAt_eq_ok.1 hentry]
    rw [hcommands, hcount]
    exact .inr (.mk ⟨m, hm, c.spacesOk⟩ hentry)

omit h in
/-- What a name in the shared namespace means is a sequence of the library, one that does not
    prepare it unless the name is that of what does. -/
theorem exists_shared (hapart : Part.Apart parts) {name : String}
    (hname : InNamespace sharedNamespace name) (hne : name ≠ Part.loadName)
    (hf : (ps.foldl Code.addProgram {}).function name = .ok f) :
    ∃ s ∈ Library.program.sequences, s.symbol ≠ .routine .load ∧
      f = ⟨sharedNamespace, s.commands⟩ := by
  obtain ⟨p, hp, hns, s, hs, hn, rfl⟩ :=
    (hapart.modular hps).exists_sequence hname (by decide) hf
  obtain ⟨part, hpart, hprogram⟩ := hps.exists_part hp
  cases part with
  | library =>
    cases hprogram
    refine ⟨s, hs, fun hload => hne ?_, rfl⟩
    rw [← hn, Program.nameOf, hload]
    rfl
  | module ns m =>
    obtain ⟨c⟩ := exists_compiled hprogram
    exact absurd (c.ns_eq.symm.trans hns) (checkNamespace_eq_ok c.namespaceOk).1

/-- What the name of a calm sequence means. -/
theorem beside (hns : (∃ spaces, Part.Declares parts ns spaces) ∨ ns = sharedNamespace)
    {q : Symbol} (hq : q.isCalm = true)
    (hf : (ps.foldl Code.addProgram {}).function (q.qualifiedName ns) = .ok f) :
    Beside (ps.foldl Code.addProgram {}) (fun ns => ∃ spaces, Part.Declares parts ns spaces)
      (IsExport (Part.Declares parts)) f := by
  have hshared : InNamespace sharedNamespace (q.qualifiedName ns) →
      q.qualifiedName ns ≠ Part.loadName → Beside (ps.foldl Code.addProgram {})
        (fun ns => ∃ spaces, Part.Declares parts ns spaces) (IsExport (Part.Declares parts)) f := by
    intro hname hne
    obtain ⟨s, hs, hload, rfl⟩ := exists_shared hps h.apart hname hne hf
    exact .calm (.inr rfl) ((calm_library hs).resolve_left hload)
  obtain ⟨ho, hi⟩ | ⟨hname, hne⟩ := Symbol.calm_cases hq ns
  · obtain ⟨spaces, m, hm, hspaces⟩ | rfl := hns
    · obtain ⟨p, hp, hprogram⟩ := hps.exists_program hm
      obtain ⟨c⟩ := exists_compiled hprogram
      obtain ⟨s, hs, hsymbol, rfl⟩ | hexport := h.exists_own hps hm c ho hi hf
      · refine .calm (.inl ⟨spaces, m, hm, hspaces⟩) (c.calm_of_symbol ?_ hs (hsymbol ▸ hq))
        exact ownOnly_ofModule c.spacesOk (h.imports ns m hm)
      · exact .exported hexport
    · exact hshared (ho.inNamespace _) (Symbol.internalName_ne_loadName hi)
  · exact hshared hname hne

/-- The fragments of a module are found. -/
theorem resolved (hm : .module ns m ∈ parts) (c : Compiled ns m p) :
    Resolved (ps.foldl Code.addProgram {}) ns #[] c.pool :=
  h.apart.resolved hps hm c (h.sequences ns m p hm c.compile_eq)

/-- The sequence of a function is its body. -/
theorem isBody (hm : .module ns m ∈ parts) (c : Compiled ns m p) {index : UInt32}
    (hs : s ∈ p.sequences) (hsymbol : s.symbol = .func index) :
    ∃ entry, c.spaces.funcAt index = .ok entry ∧
      IsBody (ps.foldl Code.addProgram {}) ns c.spaces entry ⟨ns, s.commands⟩ := by
  obtain ⟨entry, pool, pool', hentry, hcommands, hpool⟩ :=
    c.exists_commands (h.sequences ns m p hm c.compile_eq) hs hsymbol
  refine ⟨entry, hentry, ?_⟩
  obtain ⟨type, -, g, -, rfl⟩ := (ownOnly_ofModule c.spacesOk (h.imports ns m hm)).funcs entry
    (Array.mem_of_getElem? (entryAt_eq_ok.1 hentry))
  exact .mk hcommands ((h.resolved hps hm c).stretch (Nat.zero_le _) hpool)

omit h in
/-- The members of the tag that stores the window are names of sequences that do so for a module. -/
theorem exists_member {name : String}
    (hname : name ∈ (ps.foldl Code.addProgram {}).tags.members .swapOut) :
    ∃ ns spaces, Part.Declares parts ns spaces ∧ name = Symbol.swapOutAll.qualifiedName ns := by
  have hmembers : name ∈ (ps.foldl Code.addProgram {}).tags.swapOut := hname
  rw [swapOut_foldl_addProgram] at hmembers
  obtain ⟨p, hp, hmem⟩ := List.mem_flatMap.1 ((List.mem_append.1 hmembers).resolve_left
    fun h => nomatch h)
  obtain ⟨part, hpart, hprogram⟩ := hps.exists_part hp
  obtain ⟨⟨tag, q⟩, htag, rfl⟩ := List.mem_map.1 hmem
  replace htag := (List.mem_filter.1 htag).1
  cases part with
  | library =>
    cases hprogram
    cases htag
  | module ns m =>
    obtain ⟨c⟩ := exists_compiled hprogram
    have htags := congrArg Program.tags c.program
    rw [htags] at htag
    obtain ⟨s, hs, heq⟩ := List.mem_map.1 htag
    obtain rfl : s.symbol = q := (Prod.mk.inj heq).2
    refine ⟨ns, c.spaces, ⟨m, hpart, c.spacesOk⟩, ?_⟩
    rw [Compiled.mem_swapOutSequences hs, c.ns_eq]

/-- **Loaded modules are linked.** -/
theorem linked : Linked (ps.foldl Code.addProgram {}) (Part.Declares parts) where
  beside hns _ hq _ hf := h.beside hps hns hq hf
  member name hname f hf := by
    obtain ⟨ns, spaces, hns, rfl⟩ := exists_member hps hname
    exact h.beside hps (.inl ⟨spaces, hns⟩) (q := .swapOutAll) rfl hf
  function := by
    rintro ns spaces ⟨m, hm, hspaces⟩ index f hf
    obtain ⟨p, hp, hprogram⟩ := hps.exists_program hm
    obtain ⟨c⟩ := exists_compiled hprogram
    obtain rfl : c.spaces = spaces := Except.ok.inj (c.spacesOk.symm.trans hspaces)
    refine (h.exists_own hps hm c (q := .func index) trivial
      (List.cons_ne_nil _ _) hf).imp_left ?_
    rintro ⟨s, hs, hsymbol, rfl⟩
    exact h.isBody hps hm c hs hsymbol
  params := by
    rintro ns spaces ⟨m, hm, hspaces⟩ index entry hentry
    exact h.params ns m hm _ (type_mem_of_funcAt hspaces hentry)

end SelfContained

end WasmPack
