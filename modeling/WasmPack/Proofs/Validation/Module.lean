/-
  WasmPack.Proofs.Validation.Module

  Code generation accepts every module that is valid by value counts and made of
  supported parts, under every namespace that may be one, and reckons in live
  code with the heights that validation assigns.
-/
import Mathlib.Data.List.Basic
import WasmPack.Proofs.Compile.Functions
import WasmPack.Proofs.Validation.Acceptance

namespace WasmPack.Compile

open Wasm

variable {α β : Type} {m : Module} {b : Body} {ns : String}

/-! ## Generation that succeeds -/

/-- Generation that succeeds, whatever fragments there are already. -/
def Succeeds (x : Gen α) : Prop := ∀ pool, ∃ a pool', x pool = .ok (a, pool')

theorem Succeeds.pure (a : α) : Succeeds (pure a) := fun pool => ⟨a, pool, rfl⟩

theorem Succeeds.bind {x : Gen α} {f : α → Gen β} (hx : Succeeds x) (hf : ∀ a, Succeeds (f a)) :
    Succeeds (x >>= f) := by
  intro pool
  obtain ⟨a, pool₁, ha⟩ := hx pool
  obtain ⟨b, pool₂, hb⟩ := hf a pool₁
  exact ⟨b, pool₂, gen_bind_eq_ok.2 ⟨a, pool₁, ha, hb⟩⟩

theorem Succeeds.lift {x : Except CompileError α} (h : ∃ a, x = .ok a) : Succeeds (x : Gen α) := by
  intro pool
  obtain ⟨a, ha⟩ := h
  exact ⟨a, pool, gen_lift_eq_ok.2 ⟨ha, rfl⟩⟩

theorem Succeeds.mapM {f : α → Gen β} {xs : List α} (h : ∀ x ∈ xs, Succeeds (f x)) :
    Succeeds (xs.mapM f) := by
  induction xs with
  | nil =>
    rw [List.mapM_nil]
    exact .pure []
  | cons x xs ih =>
    rw [List.mapM_cons]
    exact (h x (.head _)).bind fun _ => (ih fun y hy => h y (.tail _ hy)).bind fun _ => .pure _

/-! ## Declarations -/

theorem checkTypes_of_supported (h : m.Supported) : checkTypes m = .ok () := by
  have htype : ∀ {site type}, type = ValueType.i32 → checkType site type = .ok () := by
    rintro site _ rfl
    rfl
  refine except_bind_eq_ok.2 ⟨(), forM_eq_ok.2 ?_, except_bind_eq_ok.2 ⟨(), forM_eq_ok.2 ?_,
    except_bind_eq_ok.2 ⟨(), forM_eq_ok.2 ?_, forM_eq_ok.2 ?_⟩⟩⟩
  · intro (type, i) ht
    exact forM_eq_ok.2 fun t hmem => htype (h.types type (List.fst_mem_of_mem_zipIdx ht) t hmem)
  · intro (f, i) hf
    exact forM_eq_ok.2 fun t hmem => htype (h.locals f (List.fst_mem_of_mem_zipIdx hf) t hmem)
  · intro (g, _) hg
    exact htype (h.globals g (List.fst_mem_of_mem_zipIdx hg))
  · intro i hi
    have hglobal := (h.imports i hi).global
    cases hdesc : i.desc with
    | global type => exact htype (hglobal type hdesc)
    | _ => rfl

theorem importOk_of_supported (hv : m.Valid) (hs : m.Supported) {i : Import} (hi : i ∈ m.imports) :
    ImportOk m.types.toArray i where
  origin := (hs.imports i hi).origin
  member := (hs.imports i hi).member
  desc := by
    cases hdesc : i.desc with
    | func index => exact hv.imports i hi index hdesc
    | memory limits => exact checkLimits_of_inOrder ((hs.imports i hi).memory limits hdesc)
    | global type => trivial
    | table type => exact (hs.imports i hi).noTable type hdesc

/-! ## Indices -/

theorem funcs_context (locals : Nat) :
    (IndexSpaces.declared m).funcs.toList.map FuncEntry.type = (m.context locals).funcs := by
  rw [funcs_declared, List.map_append, List.map_filterMap, List.map_filterMap]
  refine congrArg₂ (· ++ ·) (List.filterMap_congr fun i _ => ?_)
    (List.filterMap_congr fun f _ => ?_)
  · unfold importedFunc?
    cases i.desc with
    | func index => simp [Function.comp_def, FuncEntry.type]
    | _ => rfl
  · simp [definedFunc?, Function.comp_def, FuncEntry.type]

theorem memories_context (locals : Nat) :
    (IndexSpaces.declared m).memories.size = (m.context locals).memories := by
  rw [← Array.length_toList, memories_declared, List.length_append, List.length_map,
    List.length_filterMap_eq_countP]
  refine congrArg (· + m.memories.length) (List.countP_congr fun i _ => ?_)
  unfold importedMemory?
  cases i.desc <;> simp

theorem globals_context (locals : Nat) :
    (IndexSpaces.declared m).globals.size = (m.context locals).globals := by
  rw [← Array.length_toList, globals_declared, List.length_append, List.length_map,
    List.length_filterMap_eq_countP]
  refine congrArg (· + m.globals.length) (List.countP_congr fun i _ => ?_)
  unfold importedGlobal?
  cases i.desc <;> simp

/-- The declared index spaces mean what validation takes the indices to mean. -/
theorem agrees_declared (locals : Nat) :
    Agrees ⟨IndexSpaces.declared m, locals⟩ (m.context locals) where
  types := rfl
  funcs := funcs_context locals
  memories := memories_context locals
  globals := globals_context locals
  locals := rfl

theorem designates_of_has {index : UInt32} {kind : ExportKind} (h : m.Has index kind)
    (hkind : kind ≠ .table) : Designates (IndexSpaces.declared m) index kind := by
  cases kind with
  | func =>
    refine exists_entryAt ?_
    have hlt : index.toNat < (m.context 0).funcs.length := h
    rw [← funcs_context, List.length_map] at hlt
    exact hlt
  | memory => exact exists_entryAt (memories_context 0 ▸ h)
  | global => exact exists_entryAt (globals_context 0 ▸ h)
  | table => exact absurd rfl hkind

theorem declarationsOk_of_valid (hv : m.Valid) (hs : m.Supported) : DeclarationsOk m where
  imports _ hi := importOk_of_supported hv hs hi
  funcs := hv.funcs
  memories limits hl := checkLimits_of_inOrder (hs.memories limits hl)
  exports e he := checkExport_eq_ok.2
    ⟨hs.names e he, designates_of_has (hv.exports e he) (hs.noTable e he)⟩

/-! ## Bodies -/

/-- The heights that validation assigns in live code are below a bound. -/
def HeightsBelow (m : Module) (bound : Nat) : Prop :=
  ∀ b ∈ m.bodies, ∀ pos k, b.heightAt? m pos = some k → k < bound

theorem code_mem (hb : b ∈ m.bodies) : b.code ∈ m.code := by
  unfold Module.bodies at hb
  unfold Module.code
  simp only [List.mem_append, List.mem_map, List.mem_filterMap] at hb ⊢
  obtain (⟨f, hf, hb⟩ | ⟨g, hg, rfl⟩) | ⟨d, hd, rfl⟩ := hb
  · obtain ⟨type, -, rfl⟩ := Option.map_eq_some_iff.1 hb
    exact .inl (.inl ⟨f, hf, rfl⟩)
  · exact .inl (.inr ⟨g, hg, rfl⟩)
  · exact .inr ⟨d, hd, rfl⟩

theorem body_mem_of_func {type : FuncType} {locals : List ValueType} {body : Expr}
    (h : .defined type locals body ∈ (IndexSpaces.declared m).funcs.toList) :
    ⟨type.params.length + locals.length, type.results.length, body⟩ ∈ m.bodies := by
  rw [funcs_declared, List.mem_append, List.mem_filterMap, List.mem_filterMap] at h
  rcases h with ⟨i, -, hi⟩ | ⟨f, hf, hdefined⟩
  · unfold importedFunc? at hi
    split at hi
    · obtain ⟨type', -, htype⟩ := Option.map_eq_some_iff.1 hi
      cases htype
    · cases hi
  · obtain ⟨type', htype, hentry⟩ := Option.map_eq_some_iff.1 hdefined
    cases hentry
    refine List.mem_append_left _ (List.mem_append_left _ (List.mem_filterMap.2 ⟨f, hf, ?_⟩))
    rw [List.getElem?_toArray] at htype
    rw [htype]
    rfl

theorem body_mem_of_global {type : GlobalType} {init : Expr}
    (h : .defined type init ∈ (IndexSpaces.declared m).globals.toList) : ⟨0, 1, init⟩ ∈ m.bodies := by
  rw [globals_declared, List.mem_append, List.mem_filterMap, List.mem_map] at h
  rcases h with ⟨i, -, hi⟩ | ⟨g, hg, hentry⟩
  · unfold importedGlobal? at hi
    split at hi <;> cases hi
  · cases hentry
    exact List.mem_append_left _ (List.mem_append_right _ (List.mem_map_of_mem hg))

theorem body_mem_of_data {d : Data} (h : d ∈ m.data) : ⟨0, 1, d.offset⟩ ∈ m.bodies :=
  List.mem_append_right _ (List.mem_map_of_mem h)

theorem admissible_start (hv : m.Valid) (hs : m.Supported) (hh : HeightsBelow m (2 ^ 32))
    (hb : b ∈ m.bodies) :
    Admissible ⟨IndexSpaces.declared m, b.locals⟩ (m.context b.locals) [b.results] 0 (start b) where
  agrees := agrees_declared b.locals
  labelled := .single b.results
  valid := let ⟨s, hs, _⟩ := hv.bodies b hb; ⟨s, hs⟩
  supported := List.all_eq_true.1 hs.code b.code (code_mem hb)
  nesting := by
    have := hs.nesting b.code (code_mem hb)
    show 0 + nestingOf b.code ≤ maxNesting
    omega
  bounded := hh b hb

section

variable (hv : m.Valid) (hs : m.Supported) (hh : HeightsBelow m (2 ^ 32))
include hv hs hh

theorem succeeds_body (hb : b ∈ m.bodies) : Succeeds
    (lowerList ⟨IndexSpaces.declared m, b.locals⟩ 0 [⟨0, UInt32.ofNat b.results⟩] 0 b.code) :=
  exists_lowerList b.code (admissible_start hv hs hh hb)

theorem succeeds_lowerConst {init : Expr} (hb : ⟨0, 1, init⟩ ∈ m.bodies) :
    Succeeds (lowerConst (IndexSpaces.declared m) init) :=
  .bind (.bind (.lift ⟨(), checkNesting_eq_ok.2 (Nat.zero_le _)⟩) fun _ =>
    succeeds_body hv hs hh hb) fun _ => .pure _

theorem succeeds_funcSequences : Succeeds (funcSequences (IndexSpaces.declared m)) := by
  refine .mapM fun (entry, _) hentry => .bind ?_ fun _ => .pure _
  have hentry : entry ∈ (IndexSpaces.declared m).funcs.toList := List.fst_mem_of_mem_zipIdx hentry
  cases entry with
  | imported type source => exact .pure _
  | defined type locals body =>
    exact .bind (.bind (.lift ⟨(), checkNesting_eq_ok.2 (Nat.zero_le _)⟩) fun _ =>
      succeeds_body hv hs hh (body_mem_of_func hentry)) fun _ => .pure _

theorem succeeds_initGlobals : Succeeds (initGlobals (IndexSpaces.declared m)) := by
  refine .bind (.mapM fun (entry, _) hentry => ?_) fun _ => .pure _
  have hentry : entry ∈ (IndexSpaces.declared m).globals.toList := List.fst_mem_of_mem_zipIdx hentry
  cases entry with
  | imported type source => exact .pure _
  | defined type init =>
    exact .bind (succeeds_lowerConst hv hs hh (body_mem_of_global hentry)) fun _ => .pure _

theorem succeeds_lowerModule : Succeeds (lowerModule (IndexSpaces.declared m) m) := by
  refine .bind (succeeds_funcSequences hv hs hh) fun _ => .bind (succeeds_initGlobals hv hs hh)
    fun _ => .bind (.mapM fun d hd => ?_) fun _ => .bind (.lift ?_) fun _ => .pure _
  · refine .bind (.bind (.lift (designates_of_has (hv.data d hd) (by decide))) fun _ => .pure _)
      fun _ => .bind (succeeds_lowerConst hv hs hh (body_mem_of_data hd)) fun _ => .pure _
  · cases hstart : m.start with
    | none => exact ⟨_, rfl⟩
    | some index =>
      exact ⟨_, except_discard_bind_eq_ok.2
        ⟨designates_of_has (hv.start index hstart) (by decide), rfl⟩⟩

end

/-! ## The whole module -/

/-- Code generation accepts a module that is valid by value counts and made of supported parts.
    It comes to exactly the places in live code, and reckons there with the height that validation
    assigns. -/
theorem compileModule_of_valid (hv : m.Valid) (hs : m.Supported) (hh : HeightsBelow m (2 ^ 32))
    (hns : checkNamespace ns = .ok ()) :
    (∃ p, compileModule ns m = .ok p) ∧
      ∃ spaces, IndexSpaces.ofModule m = .ok spaces ∧ ∀ b ∈ m.bodies, ∀ pos k,
        (∃ q, Visits ⟨spaces, b.locals⟩ (start b) pos q ∧ q.height.toNat = k) ↔
          b.heightAt? m pos = some k := by
  have hspaces : IndexSpaces.ofModule m = .ok (IndexSpaces.declared m) :=
    ofModule_eq_ok.2 ⟨declarationsOk_of_valid hv hs, rfl⟩
  refine ⟨?_, _, hspaces, fun b hb pos k => visits_iff (admissible_start hv hs hh hb)⟩
  obtain ⟨⟨functions, init⟩, pool, hlowered⟩ := succeeds_lowerModule hv hs hh #[]
  let c : Compiled ns m _ := {
    spaces := IndexSpaces.declared m
    functions, init, pool
    namespaceOk := hns
    typesOk := checkTypes_of_supported hs
    spacesOk := hspaces
    lowered := hlowered
    program := rfl }
  exact ⟨_, c.compile_eq⟩

/-- A function that returns one of two constants, with code behind the return. -/
def choiceModule : Module where
  types := [⟨[.i32], [.i32]⟩]
  funcs := [⟨0, [], [.localGet 0, .ifElse (.value .i32) [.i32Const 1] [.i32Const 2], .ret, .drop]⟩]
  exports := [⟨"choose", .func, 0⟩]

theorem compileModule_of_valid_choice : (∃ p, compileModule "demo" choiceModule = .ok p) ∧
    ∃ spaces, IndexSpaces.ofModule choiceModule = .ok spaces ∧
      ∀ b ∈ choiceModule.bodies, ∀ pos k,
        (∃ q, Visits ⟨spaces, b.locals⟩ (start b) pos q ∧ q.height.toNat = k) ↔
          b.heightAt? choiceModule pos = some k := by
  refine compileModule_of_valid ⟨?_, ?_, ?_, ?_, ?_, ?_⟩ ⟨?_, ?_, ?_, ?_, ?_, ?_, ?_, ?_, ?_⟩ ?_ rfl
  · exact fun i hi => nomatch hi
  · decide
  · exact List.forall_mem_singleton.2 ⟨_, rfl, rfl⟩
  · exact fun d hd => nomatch hd
  · exact List.forall_mem_singleton.2 (show 0 < 1 by decide)
  · exact fun index h => nomatch h
  · exact fun i hi => nomatch hi
  · decide
  · decide
  · decide
  · exact fun limits hl => nomatch hl
  · exact List.forall_mem_singleton.2 rfl
  · decide
  · decide
  · decide
  -- The points of the body, one after the other, each with its height.
  · refine List.forall_mem_singleton.2 fun pos k h => ?_
    match pos, h with
    | [], h => cases h; decide
    | [.behind], h => cases h; decide
    | [.behind, .behind], h => cases h; decide
    | .behind :: .behind :: .behind :: _, h => cases h
    | [.behind, .inside], h => cases h; decide
    | [.behind, .otherwise], h => cases h; decide
    | [.behind, .inside, .behind], h => cases h; decide
    | [.behind, .otherwise, .behind], h => cases h; decide

end WasmPack.Compile
