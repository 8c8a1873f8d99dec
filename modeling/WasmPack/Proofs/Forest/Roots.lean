/-
  WasmPack.Proofs.Forest.Roots

  The roots of the fragments of a module.  Every expression that is compiled
  becomes a piece of code, in the sequence of its function or in what prepares
  the module, and owns the fragments that are added with it; nothing around the
  pieces calls a fragment.
-/
import Mathlib.Data.List.Forall2
import WasmPack.Proofs.Compile.Functions
import WasmPack.Proofs.Compile.Spaces
import WasmPack.Proofs.Forest.Bodies

namespace WasmPack

namespace Compile

open Wasm

variable {α β : Type} {L : Nat → Block → Prop} {spaces : IndexSpaces} {pool pool' pool₁ : Pool}
  {cs front back : List Command} {css css' roots roots' : List (List Command)}
  {es es' : List Expr} {b : Block} {body : Expr}

/-! ## Pieces -/

/-- A piece of code that an expression becomes, somewhere in some lists of commands. -/
structure IsPiece (css : List (List Command)) (body : Expr) (cs : List Command) : Prop where
  becomes : ∃ target, Becomes 0 body ⟨cs, target⟩
  stands : ∃ ds ∈ css, cs <:+: ds

theorem IsPiece.mono (h : IsPiece css body cs) (hcss : ∀ ds ∈ css, ∃ ds' ∈ css', ds <:+: ds') :
    IsPiece css' body cs := by
  obtain ⟨ds, hds, hstands⟩ := h.stands
  obtain ⟨ds', hds', hinfix⟩ := hcss ds hds
  exact ⟨h.becomes, ds', hds', hstands.trans hinfix⟩

/-- Lists of commands are generated from expressions: each expression becomes a piece of them, all
    calls of fragments are in the pieces, and the pieces span the fragments that are added, each
    its own. -/
structure Sown (L : Nat → Block → Prop) (es : List Expr) (css roots : List (List Command))
    (pool pool' : Pool) : Prop where
  grows : Extends pool pool'
  pieces : List.Forall₂ (IsPiece css) es roots
  calls : css.flatMap fragmentCalls = roots.flatMap fragmentCalls
  trees : ∃ owned, List.Forall₂ (fun cs ids => Spans L pool' (fragmentCalls cs) ids) roots owned ∧
    owned.flatten.Perm (added pool pool')

namespace Sown

theorem nil : Sown L [] [] [] pool pool :=
  ⟨.refl pool, .nil, rfl, [], .nil, by rw [added_self]; exact .nil⟩

/-- Commands that come from no expression. -/
theorem idle (h : fragmentCalls cs = []) : Sown L [] [cs] [] pool pool := by
  refine ⟨.refl pool, .nil, ?_, [], .nil, by rw [added_self]; exact .nil⟩
  rw [List.flatMap_singleton, h]
  rfl

/-- One expression, with other commands around what it becomes. -/
theorem one {scope : Scope} {labels : List Label} {height : UInt32}
    (h : lowerList scope 0 labels height body pool = .ok (b, pool')) (hL : LoopsAmong L 0 body)
    (hfront : fragmentCalls front = []) (hback : fragmentCalls back = []) :
    Sown L [body] [front ++ b.commands ++ back] [b.commands] pool pool' := by
  obtain ⟨ids, hspans, hids⟩ := owns_of_lowerList scope 0 labels height body hL h
  refine ⟨extends_lowerList scope 0 labels height body h, .cons ?_ .nil, ?_,
    [ids], .cons hspans .nil, ?_⟩
  · exact ⟨⟨b.target, _, _, _, _, _, h⟩, _, List.mem_singleton.2 rfl, front, back, rfl⟩
  · simp [hfront, hback]
  · rwa [List.flatten_singleton]

theorem append (h : Sown L es css roots pool pool₁)
    (h' : Sown L es' css' roots' pool₁ pool') :
    Sown L (es ++ es') (css ++ css') (roots ++ roots') pool pool' := by
  obtain ⟨owned, htrees, howned⟩ := h.trees
  obtain ⟨owned', htrees', howned'⟩ := h'.trees
  refine ⟨h.grows.trans h'.grows, List.rel_append (h.pieces.imp fun _ _ hpiece => ?_)
    (h'.pieces.imp fun _ _ hpiece => ?_), ?_, owned ++ owned', ?_, ?_⟩
  · exact hpiece.mono fun ds hds => ⟨ds, List.mem_append_left _ hds, List.infix_rfl⟩
  · exact hpiece.mono fun ds hds => ⟨ds, List.mem_append_right _ hds, List.infix_rfl⟩
  · rw [List.flatMap_append, h.calls, h'.calls, List.flatMap_append]
  · exact List.rel_append (htrees.imp fun _ _ hspans => hspans.extend h'.grows) htrees'
  · rw [List.flatten_append, ← added_append h.grows h'.grows]
    exact howned.append howned'

/-- Entries that are compiled one after the other. -/
theorem mapM {f : α → Gen β} {g : α → List Expr} {k : β → List Command} {xs : List α} {ys : List β}
    (hf : ∀ x ∈ xs, ∀ {pool y pool'}, f x pool = .ok (y, pool') →
      ∃ roots, Sown L (g x) [k y] roots pool pool')
    (h : xs.mapM f pool = .ok (ys, pool')) :
    ∃ roots, Sown L (xs.flatMap g) (ys.map k) roots pool pool' := by
  induction xs generalizing pool ys with
  | nil =>
    rw [List.mapM_nil] at h
    obtain ⟨rfl, rfl⟩ := gen_pure_eq_ok.1 h
    exact ⟨[], nil⟩
  | cons x xs ih =>
    rw [List.mapM_cons] at h
    obtain ⟨y, pool₁, hy, h⟩ := gen_bind_eq_ok.1 h
    obtain ⟨ys', pool₂, hys, h⟩ := gen_bind_eq_ok.1 h
    obtain ⟨rfl, rfl⟩ := gen_pure_eq_ok.1 h
    obtain ⟨hx, hxs⟩ := List.forall_mem_cons.1 hf
    obtain ⟨roots, hroots⟩ := hx hy
    obtain ⟨roots', hroots'⟩ := ih hxs hys
    exact ⟨roots ++ roots', hroots.append hroots'⟩

end Sown

/-! ## Entries -/

/-- The code of a function that is defined. -/
def FuncEntry.bodies : FuncEntry → List Expr
  | .defined _ _ body => [body]
  | .imported _ _ => []

/-- The first value of a global that is defined. -/
def GlobalEntry.bodies : GlobalEntry → List Expr
  | .defined _ init => [init]
  | .imported _ _ => []

theorem sown_funcCommands {entry : FuncEntry}
    (hL : ∀ body ∈ entry.bodies, LoopsAmong L 0 body)
    (h : funcCommands spaces entry pool = .ok (cs, pool')) :
    ∃ roots, Sown L entry.bodies [cs] roots pool pool' := by
  cases entry with
  | defined type locals body =>
    obtain ⟨b, hb, rfl⟩ := lowerFunction_eq_ok.1 h
    have hroom : fragmentCalls (locals.map fun _ => Command.append .frame (.int 0)) = [] :=
      fragmentCalls_eq_nil.2 fun c hc => by
        obtain ⟨_, -, rfl⟩ := List.mem_map.1 hc
        rfl
    have hsown := Sown.one hb (hL body List.mem_cons_self) hroom fragmentCalls_nil
    rw [List.append_nil] at hsown
    exact ⟨_, hsown⟩
  | imported type source =>
    obtain ⟨rfl, rfl⟩ := gen_pure_eq_ok.1 h
    refine ⟨[], .idle (fragmentCalls_eq_nil.2 fun c hc => ?_)⟩
    rcases List.mem_append.1 hc with hc | hc
    · obtain ⟨j, -, rfl⟩ := List.mem_map.1 hc
      rfl
    · rw [List.mem_singleton.1 hc]
      rfl

/-- A constant expression, with other commands around it. -/
theorem sown_lowerConst {init : Expr} (hL : LoopsAmong L 0 init)
    (h : lowerConst spaces init pool = .ok (cs, pool')) (hfront : fragmentCalls front = [])
    (hback : fragmentCalls back = []) :
    ∃ roots, Sown L [init] [front ++ cs ++ back] roots pool pool' := by
  obtain ⟨b, pool₁, hb, h⟩ := gen_bind_eq_ok.1 h
  obtain ⟨rfl, rfl⟩ := gen_pure_eq_ok.1 h
  exact ⟨_, .one (lowerBlock_eq_ok.1 hb).2 hL hfront hback⟩

theorem sown_initGlobal {index : UInt32} {entry : GlobalEntry}
    (hL : ∀ init ∈ entry.bodies, LoopsAmong L 0 init)
    (h : initGlobal spaces index entry pool = .ok (cs, pool')) :
    ∃ roots, Sown L entry.bodies [cs] roots pool pool' := by
  cases entry with
  | defined type init =>
    obtain ⟨ds, pool₁, hds, h⟩ := gen_bind_eq_ok.1 h
    obtain ⟨rfl, rfl⟩ := gen_pure_eq_ok.1 h
    exact sown_lowerConst (hL init List.mem_cons_self) hds rfl rfl
  | imported type source =>
    obtain ⟨rfl, rfl⟩ := gen_pure_eq_ok.1 h
    exact ⟨[], .idle rfl⟩

theorem fragmentCalls_writeByte (memory : UInt32) (k : Nat) (byte : UInt8) :
    fragmentCalls (writeByte memory k byte) = [] := by
  rw [writeByte, fragmentCalls_append,
    fragmentCalls_eq_nil.2 fun c hc => fragments_of_isBasic (basic_byteAddress k c hc)]
  rfl

theorem sown_initData {segment : Data} (hL : LoopsAmong L 0 segment.offset)
    (h : initData spaces segment pool = .ok (cs, pool')) :
    ∃ roots, Sown L [segment.offset] [cs] roots pool pool' := by
  obtain ⟨-, h⟩ := gen_discard_bind_eq_ok.1 h
  obtain ⟨offset, pool₁, hoffset, h⟩ := gen_bind_eq_ok.1 h
  obtain ⟨rfl, rfl⟩ := gen_pure_eq_ok.1 h
  have hread : fragmentCalls [.load .address top, .dropOperand] = [] := rfl
  rw [List.append_assoc, ← List.nil_append offset]
  exact sown_lowerConst hL hoffset fragmentCalls_nil (fragmentCalls_append.trans
    (congr (congrArg _ hread) (fragmentCalls_flatMap_eq_nil fun b _ =>
      fragmentCalls_writeByte segment.memory b.2 b.1)))

theorem fragmentCalls_of_startCommands {start : Option UInt32}
    (h : startCommands spaces start = .ok cs) : fragmentCalls cs = [] := by
  cases start with
  | none =>
    cases h
    rfl
  | some index =>
    obtain ⟨-, h⟩ := except_discard_bind_eq_ok.1 h
    cases h
    exact fragmentCalls_callSequence rfl 0

/-! ## The code of a module -/

end Compile

/-- A loop of a module: its depth, and what its body becomes there. -/
def Wasm.Module.IsLoop (m : Wasm.Module) (d : Nat) (code : Compile.Block) : Prop :=
  ∃ e ∈ m.code, ∃ body, Compile.HasLoop 0 e d body ∧ Compile.Becomes d body code

namespace Compile

open Wasm

variable {ns : String} {m : Module} {p : Program}

theorem loopsAmong_code {e : Expr} (he : e ∈ m.code) : LoopsAmong m.IsLoop 0 e :=
  fun hloop hcode => ⟨e, he, _, hloop, hcode⟩

/-- The functions that are declared have the code of the module's functions, in their order. -/
theorem bodies_funcs (hm : DeclarationsOk m) :
    (IndexSpaces.declared m).funcs.toList.flatMap FuncEntry.bodies = m.funcs.map (·.body) := by
  have himports : (m.imports.filterMap (importedFunc? m.types.toArray)).flatMap
      FuncEntry.bodies = [] := by
    refine List.flatMap_eq_nil_iff.2 fun entry hentry => ?_
    obtain ⟨i, -, hi⟩ := List.mem_filterMap.1 hentry
    unfold importedFunc? at hi
    split at hi
    · obtain ⟨type, -, rfl⟩ := Option.map_eq_some_iff.1 hi
      rfl
    · cases hi
  have hfuncs : ∀ funcs : List Func, (∀ f ∈ funcs, f.typeIndex.toNat < m.types.toArray.size) →
      (funcs.filterMap (definedFunc? m.types.toArray)).flatMap FuncEntry.bodies =
        funcs.map (·.body) := by
    intro funcs hfuncs
    induction funcs with
    | nil => rfl
    | cons f funcs ih =>
      obtain ⟨hf, hfuncs⟩ := List.forall_mem_cons.1 hfuncs
      have hentry : definedFunc? m.types.toArray f =
          some (.defined m.types.toArray[f.typeIndex.toNat] f.locals f.body) := by
        rw [definedFunc?, Array.getElem?_eq_getElem hf]
        rfl
      rw [List.filterMap_cons_some hentry, List.flatMap_cons, ih hfuncs]
      rfl
  rw [funcs_declared, List.flatMap_append, himports, hfuncs m.funcs hm.funcs, List.nil_append]

theorem bodies_globals :
    (IndexSpaces.declared m).globals.toList.flatMap GlobalEntry.bodies = m.globals.map (·.init) := by
  have himports : (m.imports.filterMap importedGlobal?).flatMap GlobalEntry.bodies = [] := by
    refine List.flatMap_eq_nil_iff.2 fun entry hentry => ?_
    obtain ⟨i, -, hi⟩ := List.mem_filterMap.1 hentry
    unfold importedGlobal? at hi
    split at hi
    · cases hi
      rfl
    · cases hi
  rw [globals_declared, List.flatMap_append, himports, List.nil_append, List.flatMap_map]
  exact List.flatMap_pure_eq_map ..

/-- What entries have does not depend on their numbers. -/
theorem flatMap_zipIdx_fst (xs : List α) (g : α → List β) :
    (xs.zipIdx.flatMap fun x => g x.1) = xs.flatMap g := by
  have hmap := List.flatMap_map Prod.fst g xs.zipIdx
  rw [List.zipIdx_map_fst] at hmap
  exact hmap.symm

theorem sown_funcSequences {functions : List Sequence}
    (hL : ∀ e ∈ spaces.funcs.toList.flatMap FuncEntry.bodies, LoopsAmong L 0 e)
    (h : funcSequences spaces pool = .ok (functions, pool')) :
    ∃ roots, Sown L (spaces.funcs.toList.flatMap FuncEntry.bodies)
      (functions.map (·.commands)) roots pool pool' := by
  rw [← flatMap_zipIdx_fst]
  refine Sown.mapM (fun x hx {pool s pool'} hs => ?_) h
  obtain ⟨cs, pool₁, hcs, hs⟩ := gen_bind_eq_ok.1 hs
  obtain ⟨rfl, rfl⟩ := gen_pure_eq_ok.1 hs
  have hentry := List.mem_of_getElem? (List.mem_zipIdx_iff_getElem?.1 hx)
  exact sown_funcCommands (fun e he => hL e (List.mem_flatMap_of_mem hentry he)) hcs

theorem sown_initGlobals
    (hL : ∀ e ∈ spaces.globals.toList.flatMap GlobalEntry.bodies, LoopsAmong L 0 e)
    (h : initGlobals spaces pool = .ok (cs, pool')) : ∃ parts roots, cs = parts.flatten ∧
      Sown L (spaces.globals.toList.flatMap GlobalEntry.bodies) parts roots pool pool' := by
  obtain ⟨parts, pool₁, hparts, h⟩ := gen_bind_eq_ok.1 h
  obtain ⟨rfl, rfl⟩ := gen_pure_eq_ok.1 h
  obtain ⟨roots, hroots⟩ := Sown.mapM (k := id) (fun x hx {pool cs pool'} hcs => by
    have hentry := List.mem_of_getElem? (List.mem_zipIdx_iff_getElem?.1 hx)
    exact sown_initGlobal (fun e he => hL e (List.mem_flatMap_of_mem hentry he)) hcs) hparts
  rw [flatMap_zipIdx_fst, List.map_id] at hroots
  exact ⟨parts, roots, rfl, hroots⟩

namespace Compiled

variable (c : Compiled ns m p)

include c

/-- **The code of a module is sown**, in the sequences of its functions and in what prepares it,
    behind the memories and in front of the call of the start function. -/
theorem exists_sown : ∃ parts start roots,
    c.init = [.setData memoriesPath .emptyList, .setData globalsPath .emptyList] ++
      initMemories c.spaces ++ parts.flatten ++ start ∧ fragmentCalls start = [] ∧
    Sown m.IsLoop m.code (c.functions.map (·.commands) ++ parts) roots #[] c.pool := by
  obtain ⟨hm, hspaces⟩ := ofModule_eq_ok.1 c.spacesOk
  have hlowered := c.lowered
  unfold lowerModule at hlowered
  obtain ⟨functions, pool, hfunctions, hlowered⟩ := gen_bind_eq_ok.1 hlowered
  obtain ⟨globals, pool₁, hglobals, hlowered⟩ := gen_bind_eq_ok.1 hlowered
  obtain ⟨data, pool₂, hdata, hlowered⟩ := gen_bind_eq_ok.1 hlowered
  obtain ⟨start, pool₃, hstart, hlowered⟩ := gen_bind_eq_ok.1 hlowered
  obtain ⟨heq, hpool⟩ := gen_pure_eq_ok.1 hlowered
  obtain ⟨hcall, rfl⟩ := gen_lift_eq_ok.1 hstart
  obtain ⟨hfunctions', hinit⟩ := Prod.mk.inj heq
  -- Functions, globals and data segments are compiled in the order in which the module has them.
  obtain ⟨roots, hroots⟩ := sown_funcSequences (L := m.IsLoop) (fun e he => by
    rw [hspaces, bodies_funcs hm] at he
    exact loopsAmong_code (List.mem_append_left _ (List.mem_append_left _ he))) hfunctions
  obtain ⟨parts, roots', rfl, hroots'⟩ := sown_initGlobals (L := m.IsLoop) (fun e he => by
    rw [hspaces, bodies_globals] at he
    exact loopsAmong_code (List.mem_append_left _ (List.mem_append_right _ he))) hglobals
  obtain ⟨roots'', hroots''⟩ := Sown.mapM (L := m.IsLoop) (g := fun d => [d.offset]) (k := id)
    (fun d hd {pool cs pool'} hcs => sown_initData
      (loopsAmong_code (List.mem_append_right _ (List.mem_map_of_mem hd))) hcs) hdata
  have hsown := (hroots.append hroots').append hroots''
  rw [hspaces, bodies_funcs hm, bodies_globals, ← List.map_eq_flatMap, List.map_id,
    List.append_assoc (functions.map _)] at hsown
  refine ⟨parts ++ data, start, roots ++ roots' ++ roots'', ?_,
    fragmentCalls_of_startCommands hcall, ?_⟩
  · rw [hinit, List.flatten_append]
    simp only [List.append_assoc]
  · rwa [hfunctions', hpool, Module.code]

end Compiled

end Compile

end WasmPack
