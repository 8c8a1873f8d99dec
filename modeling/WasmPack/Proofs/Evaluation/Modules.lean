/-
  WasmPack.Proofs.Evaluation.Modules

  Modules that have been loaded beside the library: their functions do on the
  machine what WebAssembly says.
-/
import WasmPack.Proofs.Calls.Chain
import WasmPack.Proofs.Evaluation.Simulation
import WasmPack.Proofs.Execution.Linked
import WasmPack.Proofs.Validation.Rises

namespace WasmPack

open Machine Compile Wasm
open Nbt (entries)

variable {parts : List Part} {ps : List Program} {p : Program} {code : Code} {ns : String}
  {m : Module} {spaces : IndexSpaces} {index : UInt32} {f : Func} {type : FuncType}
  {entry : GlobalEntry} {s : Sequence}

/-! ## Code of loaded modules -/

namespace Compile

/-- What a module without imports has at the index of a function is that function. -/
theorem funcAt_declared (hm : m.Valid) (himports : m.imports = [])
    (hf : m.funcs[index.toNat]? = some f) (htype : m.typeOf? f = some type) :
    (IndexSpaces.declared m).funcAt index = .ok (.defined type f.locals f.body) := by
  have hdefined : ∀ {g type}, m.typeOf? g = some type →
      definedFunc? m.types.toArray g = some (.defined type g.locals g.body) := by
    intro g type htype
    rw [definedFunc?, List.getElem?_toArray]
    exact congrArg _ htype
  have hmap : (m.funcs.filterMap (definedFunc? m.types.toArray)).map some =
      m.funcs.map (definedFunc? m.types.toArray) :=
    map_some_filterMap fun g hg => ⟨_, hdefined (List.getElem?_eq_getElem (hm.funcs g hg))⟩
  have hget := congrArg (·[index.toNat]?) hmap
  simp only [List.getElem?_map, hf, Option.map_some, hdefined htype] at hget
  obtain ⟨entry, hentry, heq⟩ := Option.map_eq_some_iff.1 hget
  cases heq
  refine entryAt_eq_ok.2 ?_
  rwa [← Array.getElem?_toList, funcs_declared, himports]

/-- Every global has its sequences. -/
theorem Compiled.mem_globalSequences (c : Compiled ns m p)
    (hentry : c.spaces.globalAt index = .ok entry) (hs : s ∈ globalSequences index entry) :
    s ∈ p.sequences := by
  have hglobals : s ∈ allGlobalSequences c.spaces := by
    have hindex : s ∈ globalSequences (UInt32.ofNat index.toNat) entry := by
      rwa [UInt32.ofNat_toNat]
    refine List.mem_flatMap.2 ⟨(entry, index.toNat), ?_, hindex⟩
    rw [List.mem_zipIdx_iff_getElem?, Array.getElem?_toList]
    exact entryAt_eq_ok.1 hentry
  rw [congrArg Program.sequences c.program]
  simp only [List.mem_append, hglobals, or_true, true_or]

end Compile

/-- A module without imports is installed once it has been loaded beside the library. -/
theorem Present.installed (hmod : Present parts ns m spaces) (hlib : .library ∈ parts)
    (hapart : Part.Apart parts) (hps : Part.Give parts ps) (hm : m.Valid)
    (himports : m.imports = []) : Installed (ps.foldl Code.addProgram {}) ns m spaces := by
  obtain ⟨p, hp, c, rfl⟩ := hmod.exists_program hps
  have hsize := hmod.sequences p c.compile_eq
  have hspaces : c.spaces = .declared m := (ofModule_eq_ok.1 hmod.spacesOk).2
  have hglobal : ∀ {index entry s}, c.spaces.globalAt index = .ok entry →
      s ∈ globalSequences index entry →
      (ps.foldl Code.addProgram {}).function (s.symbol.qualifiedName ns) = .ok ⟨ns, s.commands⟩ :=
    fun hentry hs => c.function_eq hmod.named hsize (hapart.modular hps) hp
      (c.mem_globalSequences hentry hs)
  have hdefined : ∀ {index entry}, c.spaces.globalAt index = .ok entry →
      ∃ type init, entry = .defined type init := fun hentry =>
    (ownOnly_ofModule c.spacesOk himports).globals _
      (Array.mem_of_getElem? (entryAt_eq_ok.1 hentry))
  refine ⟨hps.hasLibrary hlib, hspaces ▸ agrees_declared, fun index f type hf htype => ?_,
    fun index entry hentry => ?_, fun index entry hentry => ?_⟩
  · have hentry : c.spaces.funcAt index = .ok (.defined type f.locals f.body) :=
      hspaces ▸ funcAt_declared hm himports hf htype
    obtain ⟨p', t, -, -, hp', ht, hsymbol, -, hfound⟩ := hmod.exists_code hapart hps hentry
    obtain rfl := Except.ok.inj (c.compile_eq.symm.trans hp')
    obtain ⟨entry, pool, pool', hentry', hcommands, hpool⟩ := c.exists_commands hsize ht hsymbol
    obtain rfl := Except.ok.inj (hentry.symm.trans hentry')
    exact ⟨t.commands, pool, pool', hcommands,
      (hapart.resolved hps hmod.mem c hsize).stretch (Nat.zero_le _) hpool, hfound⟩
  · obtain ⟨type, init, rfl⟩ := hdefined hentry
    exact hglobal hentry (.head _)
  · obtain ⟨type, init, rfl⟩ := hdefined hentry
    exact hglobal hentry (.tail _ (.head _))

namespace Machine

/-! ## Correctness -/

/-- **Compilation is correct.**  Where a valid module without imports has been loaded beside the
    library, whatever a function of it returns for arguments and a state of the globals, by the rules
    of WebAssembly, a call of that function computes.  It completes from every operand stack, list
    of frames and list of conditions, if the constants are seeded, as they are on every booted
    machine, and no branch is under way.  It leaves the results in place of the arguments, the
    globals in their new state, no branch under way, and everything else as it was. -/
theorem calls_evaluate (hlib : .library ∈ parts) (hapart : Part.Apart parts)
    (hps : Part.Give parts ps) (hcode : ps.foldl Code.addProgram {} = code)
    (hmod : Present parts ns m spaces) (himports : m.imports = []) (hm : m.Valid) (hfits : m.Fits) :
    (∀ machine, Booted parts machine → ∃ σ, machine.store.Models σ ∧ Seeded σ) ∧
    ∀ (index : UInt32) (args gs rs gs' : List Int32), gs.length = m.globals.length →
      Returns m index args gs rs gs' → ∀ (s : Store) (l : Layout),
      Holds (fun σ => (l.holding args gs).In ns σ ∧ Idle σ) s →
      Completes code ns (callSequence (.func index) args.length) s
        fun τ => (l.holding rs gs').In ns τ ∧ Idle τ := by
  refine ⟨fun machine hbooted => hbooted.seeded, fun index args gs rs gs' hgs hreturns s l hs => ?_⟩
  obtain ⟨σ, hs, hin, hidle⟩ := hs
  have hinstalled := hmod.installed hlib hapart hps hm himports
  rw [hcode] at hinstalled
  obtain ⟨cs, hfound, hbody⟩ := simulates hinstalled hm himports hfits hreturns hgs
  obtain ⟨type, htype, hargs⟩ : ∃ type ∈ m.types, args.length = type.params.length := by
    cases hreturns with
    | func _ htype hargs => exact ⟨_, List.mem_of_getElem? htype, hargs⟩
  obtain ⟨τ, hruns, hτ⟩ := computes_callSequence hfound rfl (hargs ▸ hfits.params type htype) hin
    hidle fun τ hτ => hbody hτ
  exact hruns.completes hs hτ

/-! ## A function that calls itself -/

/-- Values can be put into a store where the constants are seeded. -/
theorem exists_layout {s : Store} {σ : State} (hs : s.Models σ) (hseeded : Seeded σ) (ns : String)
    (vs fs ws : List Nbt) (gs : List Int32) :
    ∃ s, Holds (fun τ => (⟨vs, fs, ws, gs, σ.cells⟩ : Layout).In ns τ ∧ Idle τ) s := by
  have hput : ∀ {s : Store} {σ : State} (path : Path) (k : String) (v : Nbt), s.Models σ →
      path.segments = [.key k] → ∃ s' : Store, s'.Models (σ.setCell (path.storage.id ns) k v) :=
    fun path k v h hp => let ⟨s', _, h'⟩ := h.write_top hp; ⟨s', h'⟩
  obtain ⟨s₁, hs₁⟩ := hput .conditions "conditions" (entries ws) hs rfl
  obtain ⟨s₂, hs₂⟩ := hput .frames "frames" (entries fs) hs₁ rfl
  obtain ⟨s₃, hs₃⟩ := hput .stack "stack" (entries vs) hs₂ rfl
  obtain ⟨s₄, hs₄⟩ := hput globalsPath "globals" (entries (gs.map .int)) hs₃ rfl
  refine ⟨_, _, hs₄.setReg .brDepth noBranch, .setReg ?_ rfl, idle_setReg⟩
  have hshared : ∀ {key}, key ∈ ["stack", "frames", "conditions"] → IsUsed ns sharedId key :=
    fun hkey => .inl ⟨rfl, hkey⟩
  exact {
    operands := (State.cells_setCell_of_ne (by decide)).trans State.cells_setCell_self
    frames := (State.cells_setCell_of_ne (by decide)).trans <|
      (State.cells_setCell_of_ne (by decide)).trans State.cells_setCell_self
    conditions := (State.cells_setCell_of_ne (by decide)).trans <|
      (State.cells_setCell_of_ne (by decide)).trans <|
      (State.cells_setCell_of_ne (by decide)).trans State.cells_setCell_self
    globals := State.cells_setCell_self
    others := fun id key hid => (State.cells_setCell_unused (.inr ⟨rfl, rfl⟩) hid).trans <|
      (State.cells_setCell_unused (hshared (by decide)) hid).trans <|
      (State.cells_setCell_unused (hshared (by decide)) hid).trans
      (State.cells_setCell_unused (hshared (by decide)) hid)
    seeded := hseeded }

/-- A module with a function that calls itself with the number below, down to zero, and notes each
    number but zero in a global; it returns what the global holds in the end. -/
def descendingModule : Module where
  types := [⟨[.i32], [.i32]⟩]
  funcs := [⟨0, [], [.block .empty [.localGet 0, .brIf 0, .globalGet 0, .ret],
    .localGet 0, .globalSet 0, .localGet 0, .i32Const (-1), .numeric (.intBinary .w32 .add),
    .call 0]⟩]
  globals := [⟨⟨.i32, true⟩, [.i32Const 0]⟩]

theorem valid_descending : descendingModule.Valid where
  imports _ hi := nomatch hi
  funcs := List.forall_mem_singleton.2 (by decide)
  bodies := List.forall_mem_cons.2 ⟨⟨_, rfl, rfl⟩, List.forall_mem_singleton.2 ⟨_, rfl, rfl⟩⟩
  data _ hd := nomatch hd
  exports _ he := nomatch he
  start _ h := nomatch h

theorem ceiling_descending :
    ∀ b ∈ descendingModule.bodies, b.ceiling descendingModule < 2 ^ 31 := by
  decide

theorem fits_descending : descendingModule.Fits where
  heights b hb pos k hk := Nat.lt_of_le_of_lt (Body.heightAt?_le hk) (ceiling_descending b hb)
  params := by decide
  locals := by decide
  globals := by decide
  tables := by decide

/-- At zero, the function leaves the block with what the global holds. -/
theorem returns_descending_zero {x : Int32} : Returns descendingModule 0 [0] [x] [x] [x] := by
  have hinside : Evaluates descendingModule (.list [.localGet 0, .brIf 0, .globalGet 0, .ret])
      ⟨[], [0], [x]⟩ .ret ⟨[x], [0], [x]⟩ :=
    .cons (.effect (.localGet rfl)) <| .cons .brIf <| .cons (.effect (.globalGet rfl)) <|
      .stop .ret (by decide)
  have hblock := @Evaluates.block descendingModule .empty _ _ _ [] [] _ _ _ _ _ rfl rfl hinside
  exact .func rfl rfl rfl (.stop hblock (by decide)) rfl

/-- Above zero, it calls itself. -/
theorem returns_descending {n x : Int32} {rs gs : List Int32} (hn : n ≠ 0)
    (h : Returns descendingModule 0 [n + -1] [n] rs gs) :
    Returns descendingModule 0 [n] [x] rs gs := by
  have hbranch : Evaluates descendingModule (.instr (.brIf 0)) ⟨[] ++ [n], [n], [x]⟩ (.branch 0)
      ⟨[], [n], [x]⟩ := by
    have hif := @Evaluates.brIf descendingModule 0 [] [n] [x] n
    rwa [if_neg hn] at hif
  have hinside : Evaluates descendingModule (.list [.localGet 0, .brIf 0, .globalGet 0, .ret])
      ⟨[], [n], [x]⟩ (.branch 0) ⟨[], [n], [x]⟩ :=
    .cons (.effect (.localGet rfl)) (.stop hbranch (by decide))
  have hblock := @Evaluates.block descendingModule .empty _ _ _ [] [] _ _ _ _ _ rfl rfl hinside
  have hset : Evaluates descendingModule (.instr (.globalSet 0)) ⟨[n], [n], [x]⟩ .next
      ⟨[], [n], [n]⟩ := .effect (@Effect.globalSet 0 [] [n] [x] n Nat.zero_lt_one)
  have hadd : Evaluates descendingModule (.instr (.numeric (.intBinary .w32 .add)))
      ⟨[n, -1], [n], [n]⟩ .next ⟨[n + -1], [n], [n]⟩ :=
    .effect (@Effect.numeric _ [] [n, -1] _ _ _ rfl rfl)
  have hcall := @Evaluates.call descendingModule 0 _ _ [] [n + -1] [n] _ _ _ rfl rfl rfl h
  exact .func rfl rfl rfl (.cons hblock <| .cons (.effect (.localGet rfl)) <| .cons hset <|
    .cons (.effect (.localGet rfl)) <| .cons (.effect .i32Const) <| .cons hadd <|
    .cons hcall .nil) rfl

/-- From two, the function has noted one in the end, and leaves it on an operand of its caller. -/
theorem calls_evaluate_descending : ∃ p, compileModule "demo" descendingModule = .ok p ∧
    Returns descendingModule 0 [2] [5] [1] [1] ∧ ∃ s,
      Holds (fun σ => σ.operands = some (entries [.int 7, .int 2])) s ∧
      Completes ([Library.program, p].foldl Code.addProgram {}) "demo" (callSequence (.func 0) 1) s
        fun τ => τ.operands = some (entries [.int 7, .int 1]) ∧
          τ.cells (Storage.own.id "demo") "globals" = some (entries [.int 1]) := by
  obtain ⟨p, hp⟩ : ∃ p, compileModule "demo" descendingModule = .ok p := ⟨_, rfl⟩
  have hps : Part.Give [.library, .module "demo" descendingModule] [Library.program, p] :=
    .cons rfl (.cons hp .nil)
  have hmod : Present [.library, .module "demo" descendingModule] "demo" descendingModule _ :=
    ⟨.tail _ (.head _), rfl, ⟨by decide, by decide⟩, fun p hp => by cases hp; decide⟩
  have hapart : Part.Apart [.library, .module "demo" descendingModule] := by
    intro ns m m' hm hm'
    simp only [List.mem_cons, reduceCtorEq, Part.module.injEq, List.not_mem_nil, or_false,
      false_or] at hm hm'
    rw [hm.2, hm'.2]
  obtain ⟨hseeded, hcalls⟩ := calls_evaluate (.head _) hapart hps rfl hmod rfl valid_descending
    fits_descending
  have hreturns : Returns descendingModule 0 [2] [5] [1] [1] :=
    returns_descending (by decide) (returns_descending (by decide) returns_descending_zero)
  obtain ⟨machine, -, hbooted, -⟩ := exists_booted []
  obtain ⟨σ, hs, hσ⟩ := hbooted.seeded
  obtain ⟨s, hs⟩ := exists_layout hs hσ "demo" [.int 7, .int 2] [] [] [5]
  refine ⟨p, hp, hreturns, s, hs.mono fun σ hσ => hσ.1.operands, ?_⟩
  exact (hcalls 0 [2] [5] [1] [1] rfl hreturns s ⟨[.int 7], [], [], [5], σ.cells⟩ hs).mono
    fun τ hτ => ⟨hτ.1.operands, hτ.1.globals⟩

end Machine

end WasmPack
