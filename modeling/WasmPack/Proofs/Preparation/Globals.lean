/-
  WasmPack.Proofs.Preparation.Globals

  The first values of globals.

  A constant expression is a number, or the value of a global whose own first
  value is known.  The globals of a module get room and their values one after the
  other, so each may be given the value of one in front of it.
-/
import WasmPack.Proofs.Compile.Calm
import WasmPack.Proofs.Evaluation.Modules

namespace WasmPack

open Machine Compile
open Nbt (entries)

namespace Compile

open Wasm

variable {ns : String} {m : Module} {p : Program} {spaces : IndexSpaces}
  {known : List (Option Int32)} {front : List GlobalEntry} {entry : GlobalEntry} {init : Expr}
  {value : Int32} {index : UInt32} {i : Nat} {pool : Pool} {s t : Sequence}

/-! ## Values -/

/-- The value of a constant expression, where the values of some globals are known. -/
def constOf? (known : List (Option Int32)) : Expr → Option Int32
  | [.i32Const value] => some value
  | [.globalGet index] => known[index.toNat]?.join
  | _ => none

/-- The first value of a global behind others; an imported one has none in its own module. -/
def GlobalEntry.first? (known : List (Option Int32)) : GlobalEntry → Option Int32
  | .defined _ init => constOf? known init
  | .imported .. => none

/-- The first values of globals, each of which may be that of one in front of it. -/
def firstValues (globals : List GlobalEntry) : List (Option Int32) :=
  globals.foldl (fun known entry => known ++ [entry.first? known]) []

theorem firstValues_append : firstValues (front ++ [entry]) =
    firstValues front ++ [entry.first? (firstValues front)] := by
  rw [firstValues, List.foldl_append]
  rfl

@[simp] theorem length_firstValues : (firstValues front).length = front.length := by
  induction front using List.reverseRecOn with
  | nil => rfl
  | append_singleton front entry ih =>
    rw [firstValues_append, List.length_append, List.length_append, ih]
    rfl

/-- Only a global that the module defines has a value. -/
theorem exists_defined (h : (firstValues front)[i]? = some (some value)) :
    ∃ type init, front[i]? = some (.defined type init) := by
  induction front using List.reverseRecOn with
  | nil => cases h
  | append_singleton front entry ih =>
    rw [firstValues_append] at h
    rcases Nat.lt_trichotomy i front.length with hlt | rfl | hgt
    · rw [List.getElem?_append_left (by simpa using hlt)] at h
      rw [List.getElem?_append_left hlt]
      exact ih h
    · rw [List.getElem?_append_right (by simp), length_firstValues, Nat.sub_self] at h
      rw [List.getElem?_append_right (Nat.le_refl _), Nat.sub_self]
      cases entry with
      | defined type init => exact ⟨type, init, rfl⟩
      | imported type source => cases h
    · rw [List.getElem?_eq_none (by simp; omega)] at h
      cases h

/-- Every global that a module defines begins with a number, or with the value of one in front. -/
def HaveValues (globals : List GlobalEntry) : Prop :=
  ∀ (i : Nat) type init, globals[i]? = some (.defined type init) →
    ∃ value, constOf? (firstValues (globals.take i)) init = some value

/-- What lies in the places of globals: their values, and zero where there is none. -/
def slots (known : List (Option Int32)) : List Int32 := known.map (·.getD 0)

/-! ## Commands -/

/-- The commands of a constant expression. -/
def constCommands : Expr → List Command
  | [.i32Const value] => [.append .stack (.int value)]
  | [.globalGet index] => [.call (.global index .get)]
  | _ => []

/-- An instruction without branches, by itself. -/
theorem lowers_of_lowerConst {i : Instr} (hi : i.isStraight = true) {cs : List Command}
    {pool' : Pool} (h : lowerConst spaces [i] pool = .ok (cs, pool')) :
    ∃ height, Lowers ⟨spaces, 0⟩ 0 i cs height := by
  obtain ⟨b, pool₁, hb, h⟩ := gen_bind_eq_ok.1 h
  obtain ⟨rfl, -⟩ := gen_pure_eq_ok.1 h
  obtain ⟨step, pool₂, hstep, hrest⟩ := lowerList_cons.1 (lowerBlock_eq_ok.1 hb).2
  obtain ⟨cs, height, hlower, rfl, rfl⟩ := (lowerInstr_straight hi).1 hstep
  cases hrest with
  | next hflow hnil =>
    obtain ⟨rfl, -⟩ := lowerList_nil.1 hnil
    exact ⟨height, by simpa using lowerStraight_eq_ok.1 hlower⟩
  | last hflow | guarded hflow | stop hflow => cases hflow

theorem lowerConst_eq (h : constOf? known init = some value) {cs : List Command} {pool' : Pool}
    (hlower : lowerConst spaces init pool = .ok (cs, pool')) : cs = constCommands init := by
  unfold constOf? at h
  split at h
  · obtain ⟨height, hl⟩ := lowers_of_lowerConst rfl hlower
    cases hl with
    | i32Const _ => rfl
  · obtain ⟨height, hl⟩ := lowers_of_lowerConst rfl hlower
    cases hl with
    | globalGet _ _ => rfl
  · cases h

/-- The commands that give a global its place and its first value. -/
def firstCommands (index : UInt32) : GlobalEntry → List Command
  | .defined _ init => .append globalsPath (.int 0) :: (constCommands init ++ setGlobal index)
  | .imported .. => [.append globalsPath (.int 0)]

theorem initGlobal_eq (h : ∀ type init, entry = .defined type init →
      ∃ value, constOf? known init = some value) {cs : List Command} {pool' : Pool}
    (hinit : initGlobal spaces index entry pool = .ok (cs, pool')) :
    cs = firstCommands index entry := by
  cases entry with
  | defined type init =>
    obtain ⟨value, hvalue⟩ := h type init rfl
    obtain ⟨cs, pool₁, hcs, hinit⟩ := gen_bind_eq_ok.1 hinit
    obtain ⟨rfl, -⟩ := gen_pure_eq_ok.1 hinit
    rw [lowerConst_eq hvalue hcs]
    rfl
  | imported type source =>
    obtain ⟨rfl, -⟩ := gen_pure_eq_ok.1 hinit
    rfl

theorem initGlobals_eq (h : HaveValues spaces.globals.toList) {cs : List Command} {pool' : Pool}
    (hinit : initGlobals spaces pool = .ok (cs, pool')) :
    cs = spaces.globals.toList.zipIdx.flatMap fun (entry, i) =>
      firstCommands (UInt32.ofNat i) entry := by
  obtain ⟨parts, pool₁, hparts, hinit⟩ := gen_bind_eq_ok.1 hinit
  obtain ⟨rfl, -⟩ := gen_pure_eq_ok.1 hinit
  have hmap : parts.map id = spaces.globals.toList.zipIdx.map fun (entry, i) =>
      firstCommands (UInt32.ofNat i) entry := by
    refine map_eq_of_mapM (fun (entry, i) hentry pool cs pool' hcs => ?_) hparts
    have hget : spaces.globals.toList[i]? = some entry := List.mem_zipIdx_iff_getElem?.1 hentry
    exact initGlobal_eq (fun type init heq => h i type init (heq ▸ hget)) hcs
  rw [List.map_id] at hmap
  rw [hmap, List.flatMap_def]

end Compile

/-! ## Getters -/

namespace Compile

variable {index i : UInt32} {entry : GlobalEntry} {s t : Sequence}

/-- The sequences of a global have its index, and one operation each. -/
theorem eq_of_global_symbol (hs : s ∈ globalSequences index entry)
    (ht : t ∈ globalSequences index entry) (h : t.symbol = s.symbol) : t.commands = s.commands := by
  cases entry with
  | defined type init =>
    simp only [globalSequences, List.mem_cons, List.not_mem_nil, or_false] at hs ht
    rcases hs with rfl | rfl <;> rcases ht with rfl | rfl <;> first | rfl | cases h
  | imported type source =>
    obtain ⟨op, -, rfl⟩ := List.mem_map.1 hs
    obtain ⟨op', -, rfl⟩ := List.mem_map.1 ht
    cases h
    rfl

theorem symbol_of_mem_global (hs : s ∈ globalSequences index entry) :
    ∃ op, s.symbol = .global index op := by
  cases entry with
  | defined type init =>
    simp only [globalSequences, List.mem_cons, List.not_mem_nil, or_false] at hs
    rcases hs with rfl | rfl <;> exact ⟨_, rfl⟩
  | imported type source =>
    obtain ⟨op, -, rfl⟩ := List.mem_map.1 hs
    exact ⟨op, rfl⟩

/-- No other sequence of the module has the symbol of an operation on a global. -/
theorem Compiled.mem_globals_of_symbol {ns : String} {m : Wasm.Module} {p : Program}
    (c : Compiled ns m p) {op : GlobalOp} (ht : t ∈ p.sequences)
    (hsymbol : t.symbol = .global index op) : t ∈ allGlobalSequences c.spaces := by
  cases c.kind ht with
  | function h =>
    obtain ⟨⟨i, h⟩, -⟩ := h
    cases hsymbol.symm.trans h
  | memory entry k hk h =>
    have hmem := oneEach_memory.isOfMemory t h
    rw [hsymbol] at hmem
    exact hmem.elim
  | swapOutAll h =>
    rw [h] at hsymbol
    cases hsymbol
  | global h => exact h
  | exported h =>
    have hcalm := isCalm_of_mem_exports h
    rw [hsymbol] at hcalm
    cases hcalm
  | fragment i hs h => cases hsymbol.symm.trans hs
  | init rest h hinit hs =>
    rw [hs] at hsymbol
    cases hsymbol

end Compile

/-- The operations on the globals of a module are found. -/
theorem Orderly.global_function {parts : List Part} {ps : List Program} {ns : String}
    {m : Wasm.Module} {p : Program} {index : UInt32} {entry : GlobalEntry} {s : Sequence}
    (h : Orderly parts) (hps : Part.Give parts ps) (hm : .module ns m ∈ parts)
    (c : Compiled ns m p) (hfew : c.spaces.globals.size ≤ 2 ^ 31)
    (hentry : c.spaces.globalAt index = .ok entry) (hs : s ∈ globalSequences index entry) :
    (ps.foldl Code.addProgram {}).function (s.symbol.qualifiedName ns) = .ok ⟨ns, s.commands⟩ := by
  obtain ⟨op, hop⟩ := symbol_of_mem_global hs
  have hinternal : s.symbol.IsInternal := by
    rw [hop]
    exact List.cons_ne_nil _ _
  refine h.function_eq hps hm c (c.mem_globalSequences hentry hs) hinternal fun t ht hsymbol => ?_
  obtain ⟨⟨entry', k⟩, hk, htk⟩ :=
    List.mem_flatMap.1 (c.mem_globals_of_symbol ht (hsymbol.trans hop))
  have htk : t ∈ globalSequences (UInt32.ofNat k) entry' := htk
  have hk : c.spaces.globals[k]? = some entry' := by
    rwa [List.mem_zipIdx_iff_getElem?, Array.getElem?_toList] at hk
  -- The symbol tells the index, and the index the global.
  obtain ⟨op', hop'⟩ := symbol_of_mem_global htk
  obtain ⟨hlt, -⟩ := Array.getElem?_eq_some_iff.1 hk
  have hindex : UInt32.ofNat k = index := by
    cases (hop'.symm.trans hsymbol).trans hop
    rfl
  obtain rfl : k = index.toNat := by
    rw [← hindex, toNat_ofNat_of_lt (by omega)]
  obtain rfl := Option.some.inj (hk.symm.trans (entryAt_eq_ok.1 hentry))
  rw [hindex] at htk
  exact eq_of_global_symbol hs htk hsymbol

/-! ## Runs -/

namespace Machine

variable {code : Code} {ns : String} {spaces : IndexSpaces} {σ : State} {vs : List Nbt}
  {known : List (Option Int32)} {front rest : List GlobalEntry} {gs : List Int32}
  {init : Wasm.Expr} {value : Int32}

/-- Where the code has what reads the globals that a module defines. -/
def Code.ReadsGlobals (code : Code) (ns : String) (globals : List GlobalEntry) : Prop :=
  ∀ (index : UInt32) type init, globals[index.toNat]? = some (.defined type init) →
    code.function ((Symbol.global index .get).qualifiedName ns) =
      .ok ⟨ns, [.appendFrom .stack (globalPath index)]⟩

/-- A constant expression is evaluated onto the operand stack. -/
theorem runs_const (hcode : code.ReadsGlobals ns (front ++ rest))
    (hstack : σ.operands = some (entries vs))
    (hglobals : σ.cells (Storage.own.id ns) "globals" =
      some (entries ((slots (firstValues front) ++ gs).map .int)))
    (hsize : front.length + gs.length ≤ 2 ^ 31)
    (h : constOf? (firstValues front) init = some value) :
    Runs code [⟨ns, constCommands init⟩] σ (.ok ()) (σ.setOperands (vs ++ [.int value])) := by
  unfold constOf? at h
  split at h
  · cases h
    exact .plain (.plain (.append _ _) (performs_push hstack _)) .nil
  · rename_i index
    have hvalue := Option.join_eq_some_iff.1 h
    obtain ⟨type, init, hinit⟩ := exists_defined hvalue
    have hlt : index.toNat < front.length := (List.getElem?_eq_some_iff.1 hinit).1
    have hget := hcode index type init (by rw [List.getElem?_append_left hlt, hinit])
    have hslot : (slots (firstValues front) ++ gs)[index.toNat]? = some value := by
      rw [List.getElem?_append_left (by simpa [slots] using hlt), slots, List.getElem?_map, hvalue]
      rfl
    have hpush : Steps code.tags ns (.appendFrom .stack (globalPath index)) σ [] _ :=
      steps_pushGlobal hstack hglobals hslot (by simpa [slots])
    exact .call .call hget (.plain hpush .nil) .nil
  · cases h

/-- A constant expression is evaluated into a register. -/
theorem runs_constInto {q : Register} (hcode : code.ReadsGlobals ns front)
    (hstack : σ.operands = some (entries vs))
    (hglobals : σ.cells (Storage.own.id ns) "globals" =
      some (entries ((slots (firstValues front)).map .int)))
    (hsize : front.length ≤ 2 ^ 31) (h : constOf? (firstValues front) init = some value) :
    Runs code [⟨ns, constCommands init ++ [.load q top, .dropOperand]⟩] σ (.ok ())
      (σ.setReg q value) := by
  rw [← List.append_nil front] at hcode
  rw [← List.append_nil (slots _)] at hglobals
  have hconst := runs_const hcode hstack hglobals (by simpa using hsize) h
  have hload : Steps code.tags ns (.load q top) (σ.setOperands (vs ++ [.int value])) [] _ :=
    steps_loadTop (State.operands_setOperands ..)
  have hdrop : Steps code.tags ns .dropOperand
      ((σ.setOperands (vs ++ [.int value])).setReg q value) [] _ :=
    steps_dropOperand (State.operands_setOperands σ _)
  have hsame : ((σ.setOperands (vs ++ [.int value])).setReg q value).setOperands vs =
      σ.setReg q value := by
    show ((σ.setOperands (vs ++ [.int value])).setOperands vs).setReg q value = _
    rw [State.setOperands_setOperands, State.setOperands_eq_self hstack]
  rw [hsame] at hdrop
  exact hconst.seq (.plain hload (.plain hdrop .nil))

theorem State.setOperands_setGlobals {xs : List Nbt} :
    (σ.setOperands xs).setGlobals ns gs = (σ.setGlobals ns gs).setOperands xs := by
  ext i k
  · rfl
  · simp only [setOperands, setGlobals, cells_setCell]
    by_cases h : i = Storage.own.id ns ∧ k = "globals"
    · obtain ⟨rfl, rfl⟩ := h
      simp
    · simp [h]

theorem State.setGlobals_setGlobals {gs' : List Int32} :
    (σ.setGlobals ns gs).setGlobals ns gs' = σ.setGlobals ns gs' := setCell_setCell ..

theorem State.operands_setGlobals : (σ.setGlobals ns gs).operands = σ.operands :=
  cells_setCell_of_ne (by decide)

/-- A global gets its place. -/
theorem steps_addGlobal {tags : TagTable}
    (h : σ.cells (Storage.own.id ns) "globals" = some (entries (gs.map .int))) :
    Steps tags ns (.append globalsPath (.int 0)) σ [] (σ.setGlobals ns (gs ++ [0])) := by
  have happend : Nbt.append [] (.int 0) (entries (gs.map .int)) =
      (some true, entries ((gs ++ [0]).map .int)) := by
    rw [List.map_append]
    exact Nbt.append_listOf (f := id) (x := .int 0)
  exact .plain (.append _ _) (performs_append (k := "globals") rfl h happend)

/-- The topmost operand is taken into the last global. -/
theorem runs_setGlobal {index : UInt32} (hstack : σ.operands = some (entries (vs ++ [.int value])))
    (hglobals : σ.cells (Storage.own.id ns) "globals" = some (entries ((gs ++ [0]).map .int)))
    (hindex : index.toNat = gs.length) (hsize : gs.length < 2 ^ 31) :
    Runs code [⟨ns, setGlobal index⟩] σ (.ok ())
      ((σ.setGlobals ns (gs ++ [value])).setOperands vs) := by
  have hset : Steps code.tags ns (.setFrom (globalPath index) top) σ [] _ :=
    steps_setGlobal hstack hglobals (by simp [hindex]) (by simp; omega)
  rw [hindex, List.set_append_right _ _ (Nat.le_refl _), Nat.sub_self] at hset
  have hdrop : Steps code.tags ns .dropOperand (σ.setGlobals ns (gs ++ [value])) []
      ((σ.setGlobals ns (gs ++ [value])).setOperands vs) :=
    steps_dropOperand (State.operands_setGlobals.trans hstack)
  exact .plain hset (.plain hdrop .nil)

/-- A global gets its place and its first value. -/
theorem runs_firstCommands {entry : GlobalEntry}
    (hcode : code.ReadsGlobals ns (front ++ entry :: rest))
    (hstack : σ.operands = some (entries vs))
    (hglobals : σ.cells (Storage.own.id ns) "globals" =
      some (entries ((slots (firstValues front)).map .int)))
    (hsize : front.length < 2 ^ 31)
    (hvalue : ∀ type init, entry = .defined type init →
      ∃ value, constOf? (firstValues front) init = some value) :
    Runs code [⟨ns, firstCommands (UInt32.ofNat front.length) entry⟩] σ (.ok ())
      (σ.setGlobals ns (slots (firstValues (front ++ [entry])))) := by
  have hslots : slots (firstValues (front ++ [entry])) =
      slots (firstValues front) ++ [(entry.first? (firstValues front)).getD 0] := by
    rw [firstValues_append, slots, List.map_append]
    rfl
  have hplace : Steps code.tags ns (.append globalsPath (.int 0)) σ [] _ := steps_addGlobal hglobals
  rw [hslots]
  cases entry with
  | imported type source => exact .plain hplace .nil
  | defined type init =>
    obtain ⟨value, hv⟩ := hvalue type init rfl
    have hfirst : (GlobalEntry.defined type init).first? (firstValues front) = some value := hv
    have hindex : (UInt32.ofNat front.length).toNat = front.length := toNat_ofNat_of_lt hsize
    have hlength : (slots (firstValues front)).length = front.length := by simp [slots]
    have hstack₁ : (σ.setGlobals ns (slots (firstValues front) ++ [0])).operands =
        some (entries vs) := State.operands_setGlobals.trans hstack
    have hconst := runs_const hcode hstack₁ State.cells_setCell_self
      (by rw [List.length_singleton]; omega) hv
    -- Where the value is in its place, the operands are those that were there before it.
    have hfinal : (((σ.setGlobals ns (slots (firstValues front) ++ [0])).setOperands
        (vs ++ [.int value])).setGlobals ns (slots (firstValues front) ++ [value])).setOperands vs =
          σ.setGlobals ns (slots (firstValues front) ++ [value]) := by
      rw [State.setOperands_setGlobals, State.setOperands_setOperands, State.setGlobals_setGlobals]
      exact State.setOperands_eq_self (State.operands_setGlobals.trans hstack)
    refine .plain hplace (hconst.seq ?_)
    rw [hfirst, Option.getD_some, ← hfinal]
    exact runs_setGlobal (State.operands_setOperands ..)
      ((State.cells_setCell_of_ne (by decide)).trans State.cells_setCell_self)
      (hindex.trans hlength.symm) (by omega)

/-- The globals get their places and first values one after the other. -/
theorem runs_globals {globals : List GlobalEntry} (hcode : code.ReadsGlobals ns globals)
    (hvalues : HaveValues globals) (hsize : globals.length ≤ 2 ^ 31)
    (hstack : σ.operands = some (entries vs))
    (hglobals : σ.cells (Storage.own.id ns) "globals" = some (entries [])) :
    Runs code [⟨ns, globals.zipIdx.flatMap fun (entry, i) => firstCommands (UInt32.ofNat i) entry⟩]
      σ (.ok ()) (σ.setGlobals ns (slots (firstValues globals))) := by
  -- By induction on the globals that have their values: an initial value may read any of them.
  suffices h : ∀ front rest, globals = front ++ rest →
      Runs code [⟨ns, front.zipIdx.flatMap fun (entry, i) => firstCommands (UInt32.ofNat i) entry⟩]
        σ (.ok ()) (σ.setGlobals ns (slots (firstValues front))) from
    h globals [] (List.append_nil _).symm
  intro front
  induction front using List.reverseRecOn with
  | nil =>
    intro rest _
    have hsame : σ.setGlobals ns (slots (firstValues [])) = σ := State.setCell_eq_self hglobals
    rw [hsame]
    exact .nil
  | append_singleton front entry ih =>
    intro rest heq
    rw [List.append_assoc] at heq
    have hrun := ih _ heq
    have hlt : front.length < globals.length := by
      rw [heq]
      simp
    rw [List.zipIdx_append, List.flatMap_append]
    refine hrun.seq ?_
    have hlast : (([entry].zipIdx (0 + front.length)).flatMap fun (entry, i) =>
        firstCommands (UInt32.ofNat i) entry) = firstCommands (UInt32.ofNat front.length) entry := by
      simp
    have hnext : σ.setGlobals ns (slots (firstValues (front ++ [entry]))) =
        (σ.setGlobals ns (slots (firstValues front))).setGlobals ns
          (slots (firstValues (front ++ [entry]))) := State.setGlobals_setGlobals.symm
    rw [hlast, hnext]
    refine runs_firstCommands (heq ▸ hcode)
      (State.operands_setGlobals.trans hstack) State.cells_setCell_self (by omega) ?_
    rintro type init rfl
    have hget : globals[front.length]? = some (.defined type init) := by
      rw [heq, List.getElem?_append_right (Nat.le_refl _), Nat.sub_self]
      rfl
    have hfront : globals.take front.length = front := by
      rw [heq, List.take_left]
    exact hfront ▸ hvalues _ _ _ hget

end Machine

end WasmPack
