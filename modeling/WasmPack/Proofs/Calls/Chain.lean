/-
  WasmPack.Proofs.Calls.Chain

  Calls from module to module.

  An imported function passes its arguments on to what another module exports,
  and that may be imported as well.  However many modules the call goes through,
  the function that is defined at the end finds its arguments in its frame, and
  the caller finds the results on the operand stack.
-/
import WasmPack.Proofs.Calls.Leads
import WasmPack.Proofs.Compile.Distinct
import WasmPack.Proofs.Compile.Functions
import WasmPack.Proofs.Compile.Parts

namespace WasmPack

open Machine Compile Wasm Nbt

variable {parts : List Part} {ps : List Program} {p : Program} {ns origin : String} {m : Module}
  {spaces : IndexSpaces} {index target : UInt32} {entry : FuncEntry} {s t : Sequence} {code : Code}
  {n k : Nat} {low args fs : List Nbt} {σ : State}

/-! ## Functions by their names -/

namespace Compile

/-- The exports of a module have different names, and no function is exported under a name that is
    made for something else. -/
structure WellNamed (m : Module) : Prop where
  different : (m.exports.map (·.name)).Nodup
  free : ∀ e ∈ m.exports, e.kind = .func → ¬IsReserved e.name

namespace Compiled

variable (c : Compiled ns m p)

include c

/-- Such a module has one sequence to a name. -/
theorem eq_of_nameOf_eq (hm : WellNamed m) (hsize : p.sequences.length ≤ 2 ^ 32)
    (hs : s ∈ p.sequences) (ht : t ∈ p.sequences) (h : p.nameOf t = p.nameOf s) : t = s := by
  have hfree : ∀ q ∈ p.sequences, ∀ name, q.symbol = .exportFunc name → ¬IsReserved name := by
    intro q hq name hname
    obtain ⟨e, he, hkind, rfl, -⟩ := c.exists_export hq hname
    exact hm.free e he hkind
  apply List.inj_on_of_nodup_map (c.nodup_symbols hm.different hsize) ht hs
  exact Symbol.qualifiedName_inj (c.isOwn ht) (c.isOwn hs) (hfree t ht) (hfree s hs) h

/-- Among modules with namespaces of their own, it is found under that name. -/
theorem function_eq (hm : WellNamed m) (hsize : p.sequences.length ≤ 2 ^ 32) (hps : Modular ps)
    (hp : p ∈ ps) (hs : s ∈ p.sequences) :
    (ps.foldl Code.addProgram {}).function (s.symbol.qualifiedName ns) = .ok ⟨ns, s.commands⟩ := by
  have hfound := @Modular.function_eq {} _ _ hps _ hp hs fun t ht h => by
    rw [c.eq_of_nameOf_eq hm hsize hs ht h]
  rwa [Program.nameOf, functionOf, c.ns_eq] at hfound

/-- Every function has a sequence. -/
theorem exists_function (hentry : c.spaces.funcAt index = .ok entry) :
    ∃ t pool pool', t ∈ p.sequences ∧ t.symbol = .func index ∧
      funcCommands c.spaces entry pool = .ok (t.commands, pool') := by
  have hget := entryAt_eq_ok.1 hentry
  obtain ⟨pool, hfunctions, -⟩ := c.exists_funcSequences
  have hlength : c.functions.length = c.spaces.funcs.size := by
    have hmap := congrArg List.length (@map_eq_of_mapM _ _ _ _ (fun _ => ()) (fun _ => ()) _
      (fun _ _ _ _ _ _ => rfl) _ _ _ hfunctions)
    simpa using hmap
  obtain ⟨t, ht⟩ : ∃ t, c.functions[index.toNat]? = some t := by
    obtain ⟨hlt, -⟩ := Array.getElem?_eq_some_iff.1 hget
    exact ⟨_, List.getElem?_eq_getElem (hlength.symm ▸ hlt)⟩
  obtain ⟨entry', pool₁, pool₂, hentry', hsymbol, hcommands, -⟩ := c.exists_entry ht
  obtain rfl := Option.some.inj (hentry'.symm.trans hget)
  refine ⟨t, pool₁, pool₂, ?_, by rw [hsymbol, UInt32.ofNat_toNat], hcommands⟩
  rw [congrArg Program.sequences c.program]
  simp only [List.append_assoc]
  exact List.mem_append_left _ (List.mem_of_getElem? ht)

/-- Every exported function has a sequence that takes its arguments from the operand stack. -/
theorem exists_exportSequence {e : Export} (he : e ∈ m.exports) (hkind : e.kind = .func) :
    ∃ t ∈ p.sequences, t.symbol = .exportFunc e.name ∧
      t.commands = callSequence (.func e.index) (paramCount c.spaces e.index) := by
  let t : Sequence :=
    ⟨.exportFunc e.name, callSequence (.func e.index) (paramCount c.spaces e.index)⟩
  refine ⟨t, ?_, rfl, rfl⟩
  rw [congrArg Program.sequences c.program]
  have hexport : t ∈ exportSequences c.spaces m := by
    refine List.mem_append_left _ (List.mem_append_left _ (List.mem_flatMap.2 ⟨e, ?_, ?_⟩))
    · exact List.mem_filter.2 ⟨he, decide_eq_true hkind⟩
    · exact List.mem_singleton.2 rfl
  simp only [List.mem_append, hexport, or_true, true_or]

/-- Every exported memory has a sequence for each operation that other modules may call. -/
theorem mem_exportMemory {e : Export} (he : e ∈ m.exports) (hkind : e.kind = .memory)
    {op : MemoryOp} (hop : op ∈ MemoryOp.exported) :
    ⟨.exportMemory e.name op, [.call (.memory e.index op)]⟩ ∈ p.sequences := by
  rw [congrArg Program.sequences c.program]
  have hexport : ⟨.exportMemory e.name op, [.call (.memory e.index op)]⟩ ∈
      exportSequences c.spaces m := by
    refine List.mem_append_left _ (List.mem_append_right _ (List.mem_flatMap.2 ⟨e, ?_, ?_⟩))
    · exact List.mem_filter.2 ⟨he, decide_eq_true hkind⟩
    · exact List.mem_map.2 ⟨op, hop, rfl⟩
  simp only [List.mem_append, hexport, or_true, true_or]

end Compiled

end Compile

/-! ## Chains of modules -/

/-- A module is loaded, and its exports have names of their own. -/
structure Present (parts : List Part) (ns : String) (m : Module) (spaces : IndexSpaces) :
    Prop where
  mem : .module ns m ∈ parts
  spacesOk : IndexSpaces.ofModule m = .ok spaces
  named : WellNamed m
  sequences : ∀ p, compileModule ns m = .ok p → p.sequences.length ≤ 2 ^ 32

/-- Through `k` imports, a function of a module is one that another module defines, and on the way
    all of them have `n` parameters. -/
inductive Chain (parts : List Part) (n : Nat) : String → UInt32 → Nat → String → UInt32 → Prop where
  | defined {ns : String} {m : Module} {spaces : IndexSpaces} {index : UInt32} {type : FuncType}
      {locals : List ValueType} {body : Expr} (hm : Present parts ns m spaces)
      (hentry : spaces.funcAt index = .ok (.defined type locals body))
      (hparams : type.params.length = n) : Chain parts n ns index 0 ns index
  | imported {ns : String} {m : Module} {spaces : IndexSpaces} {index : UInt32} {type : FuncType}
      {source : ExternalId} {m' : Module} {spaces' : IndexSpaces} {e : Export} {k : Nat}
      {origin : String} {target : UInt32} (hm : Present parts ns m spaces)
      (hentry : spaces.funcAt index = .ok (.imported type source))
      (hparams : type.params.length = n) (hm' : Present parts source.origin m' spaces')
      (he : e ∈ m'.exports) (hkind : e.kind = .func) (hname : e.name = source.member)
      (h : Chain parts n source.origin e.index k origin target) :
      Chain parts n ns index (k + 1) origin target

namespace Chain

theorem exists_entry (h : Chain parts n ns index k origin target) :
    ∃ m spaces entry, Present parts ns m spaces ∧ spaces.funcAt index = .ok entry ∧
      entry.type.params.length = n := by
  cases h with
  | defined hm hentry hparams => exact ⟨_, _, _, hm, hentry, hparams⟩
  | imported hm hentry hparams => exact ⟨_, _, _, hm, hentry, hparams⟩

end Chain

namespace Present

variable (hm : Present parts ns m spaces) (hapart : Part.Apart parts) (hps : Part.Give parts ps)

include hm hps

/-- The module has been compiled, and its program is one of those that are loaded. -/
theorem exists_program : ∃ p ∈ ps, ∃ c : Compiled ns m p, c.spaces = spaces := by
  obtain ⟨p, hp, hcompile⟩ := hps.exists_program hm.mem
  obtain ⟨c⟩ := exists_compiled hcompile
  exact ⟨p, hp, c, Except.ok.inj (c.spacesOk.symm.trans hm.spacesOk)⟩

include hapart

/-- Under the name of a function lies its code. -/
theorem exists_code (hentry : spaces.funcAt index = .ok entry) :
    ∃ p t pool pool', compileModule ns m = .ok p ∧ t ∈ p.sequences ∧ t.symbol = .func index ∧
      funcCommands spaces entry pool = .ok (t.commands, pool') ∧
      (ps.foldl Code.addProgram {}).function ((Symbol.func index).qualifiedName ns) =
        .ok ⟨ns, t.commands⟩ := by
  obtain ⟨p, hp, c, rfl⟩ := hm.exists_program hps
  obtain ⟨t, pool, pool', ht, hsymbol, hcommands⟩ := c.exists_function hentry
  have hfound := c.function_eq hm.named (hm.sequences p c.compile_eq) (hapart.modular hps) hp ht
  exact ⟨p, t, pool, pool', c.compile_eq, ht, hsymbol, hcommands, by rwa [hsymbol] at hfound⟩

/-- Under the name of an exported function lies a call of it. -/
theorem export_function {e : Export} (he : e ∈ m.exports) (hkind : e.kind = .func)
    (hentry : spaces.funcAt e.index = .ok entry) :
    (ps.foldl Code.addProgram {}).function ((Symbol.exportFunc e.name).qualifiedName ns) =
      .ok ⟨ns, callSequence (.func e.index) entry.type.params.length⟩ := by
  obtain ⟨p, hp, c, rfl⟩ := hm.exists_program hps
  obtain ⟨t, ht, hsymbol, hcommands⟩ := c.exists_exportSequence he hkind
  have hfound := c.function_eq hm.named (hm.sequences p c.compile_eq) (hapart.modular hps) hp ht
  have hcount : paramCount c.spaces e.index = entry.type.params.length := by
    unfold paramCount
    rw [entryAt_eq_ok.1 hentry]
  rwa [hsymbol, hcommands, hcount] at hfound

/-- Under the name of an operation of an exported memory lies a call of it. -/
theorem exportMemory_function {e : Export} (he : e ∈ m.exports) (hkind : e.kind = .memory)
    {op : MemoryOp} (hop : op ∈ MemoryOp.exported) :
    (ps.foldl Code.addProgram {}).function ((Symbol.exportMemory e.name op).qualifiedName ns) =
      .ok ⟨ns, [.call (.memory e.index op)]⟩ := by
  obtain ⟨p, hp, c, -⟩ := hm.exists_program hps
  exact c.function_eq hm.named (hm.sequences p c.compile_eq) (hapart.modular hps) hp
    (c.mem_exportMemory he hkind hop)

end Present

/-! ## Calls through a chain -/

namespace Chain

/-- The call comes to the function that is defined at the end of the chain; every module on the way
    has opened a frame with the arguments.  What is then left of the functions on the way closes
    these frames again. -/
theorem leads (h : Chain parts n ns index k origin target) (hapart : Part.Apart parts)
    (hps : Part.Give parts ps) (hcode : ps.foldl Code.addProgram {} = code) (hn : n ≤ 2 ^ 31)
    (hargs : args.length = n) : ∃ m p t, .module origin m ∈ parts ∧
      compileModule origin m = .ok p ∧ t ∈ p.sequences ∧ t.symbol = .func target ∧
      ∀ {σ : State} {fs : List Nbt}, σ.operands = some (entries (low ++ args)) →
        σ.frames = some (entries fs) → ∃ pending : List Function,
          (∀ outer, Leads code (⟨ns, callSequence (.func index) n⟩ :: outer) σ
            (⟨origin, t.commands⟩ :: (pending ++ outer))
            ((σ.setFrames (fs ++ List.replicate (k + 1) (entries args))).setOperands low)) ∧
          ∀ {τ : State} {own : Nbt} (outer), τ.frames =
              some (entries (fs ++ List.replicate k (entries args) ++ [own])) →
            Leads code (pending ++ outer) τ outer
              ((τ.setFrames fs).setReg .brDepth noBranch) := by
  subst hcode
  induction h with
  | @defined ns m spaces index type locals body hm hentry hparams =>
    obtain ⟨p, t, pool, pool', hp, ht, hsymbol, -, hfound⟩ := hm.exists_code hapart hps hentry
    refine ⟨m, p, t, hm.mem, hp, ht, hsymbol, fun {σ fs} hstack hframes =>
      ⟨[⟨ns, callRest⟩], fun outer => ?_, fun {τ own} outer hτ => ?_⟩⟩
    · exact (leads_call _ hstack hargs hn hframes).trans (.call hfound)
    · rw [List.replicate_zero, List.append_nil] at hτ
      exact leads_callRest hτ
  | @imported ns m spaces index type source m' spaces' e k origin target hm hentry hparams hm' he
      hkind hname h ih =>
    obtain ⟨p, t, pool, pool', -, -, -, hcommands, hfound⟩ := hm.exists_code hapart hps hentry
    obtain ⟨hforward, -⟩ := gen_pure_eq_ok.1 hcommands
    rw [hforward, hparams] at hfound
    -- The export that is called has as many parameters as the function behind it.
    obtain ⟨m'', spaces'', entry, hm'', hentry'', hcount⟩ := h.exists_entry
    obtain rfl := hapart _ _ _ hm'.mem hm''.mem
    obtain rfl := Except.ok.inj (hm'.spacesOk.symm.trans hm''.spacesOk)
    have hexport := hm'.export_function hapart hps he hkind hentry''
    rw [hcount, hname] at hexport
    obtain ⟨md, pd, td, hmem, hpd, htd, hsymbol, hrest⟩ := ih
    refine ⟨md, pd, td, hmem, hpd, htd, hsymbol, fun {σ fs} hstack hframes => ?_⟩
    obtain ⟨pending, hin, hout⟩ := @hrest (σ.setFrames (fs ++ [entries args])
      |>.setOperands low |>.setOperands (low ++ args)) (fs ++ [entries args])
      (State.operands_setOperands _ _) (by simp)
    refine ⟨pending ++ [⟨ns, []⟩, ⟨ns, callRest⟩], fun outer => ?_, fun {τ own} outer hτ => ?_⟩
    · refine (leads_call _ hstack hargs hn hframes).trans (.trans (.call hfound) ?_)
      have hopened : ((σ.setFrames (fs ++ [entries args])).setOperands low).frames =
          some (entries (fs ++ [entries args])) := by simp
      refine (leads_forward _ (State.operands_setOperands _ _) hargs hn hopened).trans ?_
      have himport : (ps.foldl Code.addProgram {}).function
          ((Symbol.importFunc source).qualifiedName ns) = .ok _ := hexport
      refine .trans (.call himport) ?_
      have hgo := hin (⟨ns, []⟩ :: ⟨ns, callRest⟩ :: outer)
      rw [State.setOperands_setOperands, State.setOperands_setFrames, State.setFrames_setFrames,
        State.setOperands_setOperands, List.append_assoc, List.singleton_append,
        ← List.replicate_succ] at hgo
      rw [State.setOperands_setOperands, List.append_assoc]
      exact hgo
    · rw [List.replicate_succ, ← List.singleton_append, ← List.append_assoc fs] at hτ
      have hback := hout (⟨ns, []⟩ :: ⟨ns, callRest⟩ :: outer) hτ
      rw [List.append_assoc]
      refine hback.trans (.trans .leave ?_)
      have hframes : ((τ.setFrames (fs ++ [entries args])).setReg .brDepth noBranch).frames =
          some (entries (fs ++ [entries args])) :=
        State.frames_setFrames τ (fs ++ [entries args])
      have hclosed : (((τ.setFrames (fs ++ [entries args])).setReg .brDepth noBranch).setFrames
          fs).setReg .brDepth noBranch = (τ.setFrames fs).setReg .brDepth noBranch := by
        rw [State.setFrames_setReg, State.setReg_setReg, State.setFrames_setFrames]
      rw [← hclosed]
      exact leads_callRest hframes

end Chain

/-- **Calls compose across modules.**  A call of a function that is imported through any number of
    modules comes to the function at the end of the chain, with the operand stack below the
    arguments and with the arguments in a frame.  If that function then comes to its end, with
    results in their place and with every frame but its own as it was, the call comes to its end
    with the results, the frames of the caller, and no branch under way. -/
theorem calls_compose {s : Store} (h : Chain parts n ns index k origin target)
    (hapart : Part.Apart parts) (hps : Part.Give parts ps)
    (hcode : ps.foldl Code.addProgram {} = code) (hn : n ≤ 2 ^ 31) (hargs : args.length = n)
    (hs : s.Models σ) (hstack : σ.operands = some (entries (low ++ args)))
    (hframes : σ.frames = some (entries fs)) :
    ∃ m p t, .module origin m ∈ parts ∧ compileModule origin m = .ok p ∧ t ∈ p.sequences ∧
      t.symbol = .func target ∧ ∃ pending s₁,
        Reaches code ⟨[⟨ns, callSequence (.func index) n⟩], s⟩ ⟨⟨origin, t.commands⟩ :: pending, s₁⟩ ∧
        s₁.Models
          ((σ.setFrames (fs ++ List.replicate (k + 1) (entries args))).setOperands low) ∧
        ∀ {limit gas s₂ τ rs own}, run code limit 0 [⟨origin, t.commands⟩] s₁ = ⟨.ok (), gas, s₂⟩ →
          s₂.Models τ → τ.operands = some (entries (low ++ rs)) →
          τ.frames = some (entries (fs ++ List.replicate k (entries args) ++ [own])) →
          ∃ gas' s₃, (∀ limit', gas' ≤ limit' →
              run code limit' 0 [⟨ns, callSequence (.func index) n⟩] s = ⟨.ok (), gas', s₃⟩) ∧
            Holds (fun τ' => τ'.operands = some (entries (low ++ rs)) ∧
              τ'.frames = some (entries fs) ∧ τ'.regs .brDepth = some noBranch) s₃ := by
  obtain ⟨m, p, t, hm, hp, ht, hsymbol, hleads⟩ := h.leads hapart hps hcode hn hargs
  obtain ⟨pending, hin, hout⟩ := hleads hstack hframes
  obtain ⟨s₁, hreach, hs₁⟩ := hin [] s hs
  rw [List.append_nil] at hreach
  refine ⟨m, p, t, hm, hp, ht, hsymbol, pending, s₁, hreach, hs₁, ?_⟩
  intro limit gas s₂ τ rs own hrun hs₂ hτ hframes'
  obtain ⟨s₃, hback, hs₃⟩ := hout [] hframes' s₂ hs₂
  rw [List.append_nil] at hback
  -- The function runs in front of what is pending, as it does by itself.
  have hbody := (reaches_of_run hrun).behind pending
  obtain ⟨gas', hgas'⟩ := run_of_reaches (hreach.trans (hbody.trans hback))
  refine ⟨gas', s₃, fun limit' hle => ?_, _, hs₃, ?_, State.frames_setFrames τ fs, ?_⟩
  · have hall := hgas' limit' 0 (by omega)
    rwa [Nat.zero_add] at hall
  · rw [State.operands_setReg, State.operands_setFrames, hτ]
  · rw [State.regs_setReg, if_pos rfl]

/-- A module that exports a function which gives back its argument. -/
def definingModule : Module where
  types := [⟨[.i32], [.i32]⟩]
  funcs := [⟨0, [], [.localGet 0]⟩]
  exports := [⟨"f", .func, 0⟩]

/-- A module that imports that function and exports it again. -/
def passingModule : Module where
  types := [⟨[.i32], [.i32]⟩]
  imports := [⟨"alpha", "f", .func 0⟩]
  exports := [⟨"g", .func, 0⟩]

/-- A call of the imported function comes to the one that is defined. -/
theorem calls_compose_pair : ∃ p q, compileModule "alpha" definingModule = .ok p ∧
    compileModule "beta" passingModule = .ok q ∧ ∃ s cs pending s₁,
      Holds (fun σ => σ.operands = some (entries [.int 7, .int 3]) ∧
        σ.frames = some (entries [])) s ∧
      Reaches ((Code.addProgram {} p).addProgram q) ⟨[⟨"beta", callSequence (.func 0) 1⟩], s⟩
        ⟨⟨"alpha", cs⟩ :: pending, s₁⟩ ∧
      Holds (fun σ => σ.operands = some (entries [.int 7]) ∧
        σ.frames = some (entries [entries [.int 3], entries [.int 3]])) s₁ := by
  -- A store in which both lists are written as the host writes them.
  obtain ⟨s, σ, hs, hstack, hframes⟩ : ∃ (s : Store) (σ : State), s.Models σ ∧
      σ.operands = some (entries ([.int 7] ++ [.int 3])) ∧ σ.frames = some (entries []) := by
    have hframes : ∃ s, write "" .frames (entries []) {} = .ok _ s ∧ s.Models _ :=
      Store.models_empty.write_top rfl
    obtain ⟨s₁, -, hs₁⟩ := hframes
    have hstack : ∃ s, write "" .stack (entries [.int 7, .int 3]) s₁ = .ok _ s ∧ s.Models _ :=
      hs₁.write_top rfl
    obtain ⟨s₂, -, hs₂⟩ := hstack
    refine ⟨s₂, (State.setFrames ⟨fun _ => none, fun _ _ => none⟩ []).setOperands [.int 7, .int 3],
      hs₂, State.operands_setOperands _ _, by simp⟩
  let parts : List Part := [.module "alpha" definingModule, .module "beta" passingModule]
  have hdefining : Present parts "alpha" definingModule _ :=
    ⟨by simp [parts], rfl, ⟨by decide, by decide⟩, fun p hp => by cases hp; decide⟩
  have hpassing : Present parts "beta" passingModule _ :=
    ⟨by simp [parts], rfl, ⟨by decide, by decide⟩, fun p hp => by cases hp; decide⟩
  have hchain : Chain parts 1 "beta" 0 1 "alpha" 0 :=
    .imported hpassing rfl rfl hdefining (e := ⟨"f", .func, 0⟩) (by decide) rfl rfl
      (.defined hdefining rfl rfl)
  have hapart : Part.Apart parts := .pair (by decide)
  have hps : Part.Give parts [_, _] := .cons rfl (.cons rfl .nil)
  have hargs : ([.int 3] : List Nbt).length = 1 := rfl
  obtain ⟨m, p, t, -, -, -, -, pending, s₁, hreach, hs₁, -⟩ := calls_compose hchain hapart hps rfl
    (by decide) hargs hs hstack hframes
  exact ⟨_, _, rfl, rfl, s, t.commands, pending, s₁, ⟨σ, hs, hstack, hframes⟩,
    hreach, _, hs₁, by simp, by simp [List.replicate]⟩

end WasmPack
