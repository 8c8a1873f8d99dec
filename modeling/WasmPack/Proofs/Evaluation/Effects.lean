/-
  WasmPack.Proofs.Evaluation.Effects

  How a machine carries what WebAssembly code works on, and what compiled code
  does there for instructions that neither branch nor enclose others.

  Operands lie on top of whatever else is on the operand stack, locals in the
  innermost frame, and globals in the storage of the module.  An instruction by
  itself carries out its effect.  A call takes the arguments from the operand
  stack, and leaves the results there.
-/
import WasmPack.Proofs.Evaluation.Rules
import WasmPack.Proofs.Operands.Drops
import WasmPack.Proofs.Validation.Exact

namespace WasmPack.Machine

open Compile Wasm
open Nbt (entries position?_top getElem?_top set_top write_top)

variable {code : Code} {tags : TagTable} {ns : String} {l : Layout} {c c' : Values}
  {σ τ : State} {Q : State → Prop} {cs : List Command} {xs ys : List Int32} {vs : List Nbt}
  {x n : Int32} {r : Register} {index height height' : UInt32} {i : Instr}

/-! ## Layouts -/

/-- The code of a module keeps values there. -/
def IsUsed (ns id key : String) : Prop :=
  (id = sharedId ∧ key ∈ ["stack", "frames", "conditions"]) ∨
    (id = Storage.own.id ns ∧ key = "globals")

/-- What lies in storages while the code of a module runs. -/
structure Layout where
  operands : List Nbt
  frames : List Nbt
  conditions : List Nbt
  globals : List Int32
  /-- Everything that the code of the module does not use. -/
  others : String → String → Option Nbt

/-- A state in which the constants are seeded has the layout. -/
structure Layout.In (ns : String) (l : Layout) (σ : State) : Prop where
  operands : σ.operands = some (entries l.operands)
  frames : σ.frames = some (entries l.frames)
  conditions : σ.conditions = some (entries l.conditions)
  globals : σ.cells (Storage.own.id ns) "globals" = some (entries (l.globals.map .int))
  others : ∀ id key, ¬IsUsed ns id key → σ.cells id key = l.others id key
  seeded : Seeded σ

namespace State

/-- Put conditions in place of those that were put aside. -/
def setConditions (σ : State) (vs : List Nbt) : State :=
  σ.setCell sharedId "conditions" (entries vs)

/-- Put globals in place of those of a module. -/
def setGlobals (σ : State) (ns : String) (xs : List Int32) : State :=
  σ.setCell (Storage.own.id ns) "globals" (entries (xs.map .int))

theorem cells_setCell_self {id key : String} {v : Nbt} :
    (σ.setCell id key v).cells id key = some v :=
  if_pos ⟨rfl, rfl⟩

/-- What lies under another key stays. -/
theorem cells_setCell_of_ne {id id' key key' : String} {v : Nbt} (hk : key' ≠ key) :
    (σ.setCell id key v).cells id' key' = σ.cells id' key' :=
  if_neg fun h => hk h.2

/-- What the code of a module does not use stays where a value that it does use changes. -/
theorem cells_setCell_unused {id id' key key' : String} {v : Nbt} (hused : IsUsed ns id key)
    (hid : ¬IsUsed ns id' key') : (σ.setCell id key v).cells id' key' = σ.cells id' key' :=
  if_neg fun ⟨hi, hk⟩ => hid (hi ▸ hk ▸ hused)

end State

namespace Layout.In

variable (h : l.In ns σ)
include h

theorem setReg (hr : r.isWork = true) : l.In ns (σ.setReg r n) :=
  { h with seeded := Seeded.ignores.setReg n h.seeded hr }

/-- Registers in which routines compute are no part of the layout. -/
theorem touches (hτ : Touches lettered σ τ) : l.In ns τ where
  operands := hτ.operands.trans h.operands
  frames := (congrFun (congrFun hτ.cells _) _).trans h.frames
  conditions := (congrFun (congrFun hτ.cells _) _).trans h.conditions
  globals := (congrFun (congrFun hτ.cells _) _).trans h.globals
  others id key hid := (congrFun (congrFun hτ.cells _) _).trans (h.others id key hid)
  seeded := hτ.seeded h.seeded

/-- What the code of a module does not use stays where values that it does use change. -/
theorem others_setCell {id key : String} (hused : IsUsed ns id key) (v : Nbt) (id' key' : String)
    (hid : ¬IsUsed ns id' key') : (σ.setCell id key v).cells id' key' = l.others id' key' :=
  (State.cells_setCell_unused hused hid).trans (h.others id' key' hid)

theorem setOperands (vs : List Nbt) : { l with operands := vs }.In ns (σ.setOperands vs) where
  operands := State.cells_setCell_self
  frames := (State.cells_setCell_of_ne (by decide)).trans h.frames
  conditions := (State.cells_setCell_of_ne (by decide)).trans h.conditions
  globals := (State.cells_setCell_of_ne (by decide)).trans h.globals
  others := h.others_setCell (.inl ⟨rfl, by decide⟩) _
  seeded := h.seeded

theorem setFrames (vs : List Nbt) : { l with frames := vs }.In ns (σ.setFrames vs) where
  operands := (State.cells_setCell_of_ne (by decide)).trans h.operands
  frames := State.cells_setCell_self
  conditions := (State.cells_setCell_of_ne (by decide)).trans h.conditions
  globals := (State.cells_setCell_of_ne (by decide)).trans h.globals
  others := h.others_setCell (.inl ⟨rfl, by decide⟩) _
  seeded := h.seeded

theorem setConditions (vs : List Nbt) : { l with conditions := vs }.In ns (σ.setConditions vs) where
  operands := (State.cells_setCell_of_ne (by decide)).trans h.operands
  frames := (State.cells_setCell_of_ne (by decide)).trans h.frames
  conditions := State.cells_setCell_self
  globals := (State.cells_setCell_of_ne (by decide)).trans h.globals
  others := h.others_setCell (.inl ⟨rfl, by decide⟩) _
  seeded := h.seeded

theorem setGlobals (xs : List Int32) : { l with globals := xs }.In ns (σ.setGlobals ns xs) where
  operands := (State.cells_setCell_of_ne (by decide)).trans h.operands
  frames := (State.cells_setCell_of_ne (by decide)).trans h.frames
  conditions := (State.cells_setCell_of_ne (by decide)).trans h.conditions
  globals := State.cells_setCell_self
  others := h.others_setCell (.inr ⟨rfl, rfl⟩) _
  seeded := h.seeded

end Layout.In

/-! ## Values in layouts -/

/-- The layout with the values that code works on: operands above those that are there, and locals
    in a frame of their own. -/
def Layout.with (l : Layout) (c : Values) : Layout where
  operands := l.operands ++ c.stack.map .int
  frames := l.frames ++ [entries (c.locals.map .int)]
  conditions := l.conditions
  globals := c.globals
  others := l.others

/-- The layout with more operands. -/
def Layout.over (l : Layout) (xs : List Int32) : Layout :=
  { l with operands := l.operands ++ xs.map .int }

@[simp] theorem Layout.over_over : (l.over xs).over ys = l.over (xs ++ ys) := by
  simp [Layout.over]

@[simp] theorem Layout.over_nil : l.over [] = l := by
  simp [Layout.over]

/-- Operands of an enclosing construct lie below those of the code inside it. -/
theorem Layout.over_with {ls gs : List Int32} :
    (l.over xs).with ⟨ys, ls, gs⟩ = l.with ⟨xs ++ ys, ls, gs⟩ := by
  simp [Layout.over, Layout.with]

/-! ## Commands -/

/-- An index of a list that is not too long means its element. -/
theorem position?_index {m : Nat} (hi : index.toNat < m) (hm : m ≤ 2 ^ 31) :
    Nbt.position? index.toInt32 m = some index.toNat := by
  refine Nbt.position?_of_lt ?_ hi
  rw [toInt_toInt32, if_pos (by omega)]

theorem getElem?_map_int {ls : List Int32} {k : Nat} (hx : ls[k]? = some x) :
    (ls.map Nbt.int)[k]? = some (.int x) := by
  rw [List.getElem?_map, hx, Option.map_some]

section
variable {ls gs : List Int32}

/-- The topmost operand takes the place of a local. -/
theorem steps_setLocal {fs own : List Nbt} {v : Nbt}
    (hstack : σ.operands = some (entries (vs ++ [v])))
    (hframes : σ.frames = some (entries (fs ++ [entries own]))) (hi : index.toNat < own.length)
    (hsize : own.length ≤ 2 ^ 31) : Steps tags ns (.setFrom (.local index) top) σ []
      (σ.setFrames (fs ++ [entries (own.set index.toNat v)])) := by
  obtain ⟨b, hwrite⟩ := write_top fs v (position?_index hi hsize)
  exact .plain (.setFrom _ _) (performs_setFrom ⟨"stack", _, rfl⟩
    (State.lookup_operand hstack (position?_top vs) getElem?_top)
    (performs_setData (k := "frames") rfl (List.cons_ne_nil _ _) hframes hwrite))

/-- The topmost operand takes the place of the one below it. -/
theorem steps_setBelow {u v : Nbt} (hstack : σ.operands = some (entries (vs ++ [u, v]))) :
    Steps tags ns (.setFrom (.operand (-2)) top) σ [] (σ.setOperands (vs ++ [v, v])) := by
  have hp : Nbt.position? (-2) (vs ++ [u, v]).length = some vs.length := by
    rw [Nbt.position?_of_neg (j := 1) rfl (by simp)]
    simp
  obtain ⟨b, hwrite⟩ := Nbt.write_listOf (f := id) (y := v) hp
  rw [List.set_append_right _ _ (Nat.le_refl _), Nat.sub_self, List.set_cons_zero] at hwrite
  have htop : σ.operands = some (entries ((vs ++ [u]) ++ [v])) := by simpa using hstack
  exact .plain (.setFrom _ _) (performs_setFrom ⟨"stack", _, rfl⟩
    (State.lookup_operand htop (position?_top _) getElem?_top)
    (performs_setData (k := "stack") rfl (List.cons_ne_nil _ _) hstack hwrite))

theorem lookup_global (hglobals : σ.cells (Storage.own.id ns) "globals" =
      some (entries (gs.map .int))) (hx : gs[index.toNat]? = some x) (hsize : gs.length ≤ 2 ^ 31) :
    σ.lookup ns (globalPath index) = some (.stored (.int x)) := by
  have hi : index.toNat < gs.length := (List.getElem?_eq_some_iff.1 hx).1
  show (σ.cells (Storage.own.id ns) "globals").bind (fun w => w.lookup [.index index.toInt32]) = _
  rw [hglobals]
  exact Nbt.lookup_listOf (f := id)
    (by rw [List.length_map]; exact position?_index hi hsize) (getElem?_map_int hx)

/-- A global is copied onto the operand stack. -/
theorem steps_pushGlobal (hstack : σ.operands = some (entries vs))
    (hglobals : σ.cells (Storage.own.id ns) "globals" = some (entries (gs.map .int)))
    (hx : gs[index.toNat]? = some x) (hsize : gs.length ≤ 2 ^ 31) :
    Steps tags ns (.appendFrom .stack (globalPath index)) σ [] (σ.setOperands (vs ++ [.int x])) :=
  .plain (.appendFrom _ _) (performs_appendFrom ⟨"globals", _, rfl⟩
    (lookup_global hglobals hx hsize) (performs_push hstack _))

/-- The topmost operand takes the place of a global. -/
theorem steps_setGlobal (hstack : σ.operands = some (entries (vs ++ [.int x])))
    (hglobals : σ.cells (Storage.own.id ns) "globals" = some (entries (gs.map .int)))
    (hi : index.toNat < gs.length) (hsize : gs.length ≤ 2 ^ 31) :
    Steps tags ns (.setFrom (globalPath index) top) σ []
      (σ.setGlobals ns (gs.set index.toNat x)) := by
  have hi' : index.toNat < (gs.map Nbt.int).length := by rwa [List.length_map]
  obtain ⟨b, hwrite⟩ := Nbt.write_listOf (f := id) (y := .int x)
    (position?_index hi' (by rwa [List.length_map]))
  rw [← List.map_set] at hwrite
  exact .plain (.setFrom _ _) (performs_setFrom ⟨"stack", _, rfl⟩
    (State.lookup_operand hstack (position?_top vs) getElem?_top)
    (performs_setData (k := "globals") rfl (List.cons_ne_nil _ _) hglobals hwrite))

end

variable {m : Module} {spaces : IndexSpaces} {ls gs : List Int32}

/-! ## Code of a module -/

/-- The code of a module has been loaded, and what it calls is found under its name. -/
structure Installed (code : Code) (ns : String) (m : Module) (spaces : IndexSpaces) : Prop where
  library : code.HasLibrary
  agrees : ∀ locals, Agrees ⟨spaces, locals⟩ (m.context locals)
  func : ∀ index f type, m.funcs[index.toNat]? = some f → m.typeOf? f = some type →
    ∃ cs pool pool', lowerFunction spaces type f.locals f.body pool = .ok (cs, pool') ∧
      Resolved code ns pool pool' ∧
      code.function ((Symbol.func index).qualifiedName ns) = .ok ⟨ns, cs⟩
  get : ∀ index entry, spaces.globalAt index = .ok entry →
    code.function ((Symbol.global index .get).qualifiedName ns) =
      .ok ⟨ns, [.appendFrom .stack (globalPath index)]⟩
  set : ∀ index entry, spaces.globalAt index = .ok entry →
    code.function ((Symbol.global index .set).qualifiedName ns) = .ok ⟨ns, setGlobal index⟩

/-- A function is called that is found. -/
theorem Computes.callFound {symbol : Symbol} {ns' : String} {ds : List Command}
    {Q' : State → Prop} (hf : code.function (symbol.qualifiedName ns) = .ok ⟨ns', ds⟩)
    (hbody : Computes code ns' ds σ Q) (h : ∀ τ, Q τ → Computes code ns cs τ Q') :
    Computes code ns (.call symbol :: cs) σ Q' := by
  obtain ⟨τ, hruns, hτ⟩ := hbody
  obtain ⟨υ, hruns', hυ⟩ := h τ hτ
  exact ⟨υ, .call .call hf hruns hruns', hυ⟩

/-! ## Values on the operand stack -/

/-- The state carries the values, and no branch is under way. -/
structure Rests (ns : String) (l : Layout) (c : Values) (σ : State) : Prop where
  layout : (l.with c).In ns σ
  idle : Idle σ

namespace Layout.In

/-- Some of the operands are set apart. -/
theorem operands_append (h : (l.with ⟨xs ++ ys, ls, gs⟩).In ns σ) :
    σ.operands = some (entries (l.operands ++ xs.map .int ++ ys.map .int)) := by
  rw [h.operands]
  simp [Layout.with]

/-- Other operands take the place of those of the code. -/
theorem setStack (h : (l.with ⟨xs, ls, gs⟩).In ns σ) (ys : List Int32) :
    (l.with ⟨ys, ls, gs⟩).In ns (σ.setOperands (l.operands ++ ys.map .int)) :=
  h.setOperands _

/-- The topmost operands give way to others. -/
theorem setTop (zs : List Int32) (h : (l.with ⟨xs ++ ys, ls, gs⟩).In ns σ) :
    (l.with ⟨xs ++ zs, ls, gs⟩).In ns
      (σ.setOperands (l.operands ++ xs.map .int ++ zs.map .int)) := by
  have hset := h.setStack (xs ++ zs)
  rwa [List.map_append, ← List.append_assoc] at hset

/-- Other locals take the place of those of the function. -/
theorem setLocals (h : (l.with ⟨xs, ls, gs⟩).In ns σ) (ls' : List Int32) :
    (l.with ⟨xs, ls', gs⟩).In ns
      (σ.setFrames (l.frames ++ [entries (ls'.map .int)])) :=
  h.setFrames _

end Layout.In

namespace Rests

/-- Registers that neither tell of a branch nor are constants do not matter. -/
theorem setReg {r : Register} {n : Int32} (h : Rests ns l c σ) (hr : r.isWork = true)
    (hne : .brDepth ≠ r) : Rests ns l c (σ.setReg r n) :=
  ⟨h.layout.setReg hr, (if_neg hne).trans h.idle⟩

/-- The topmost operands give way to others. -/
theorem setTop (zs : List Int32) (h : Rests ns l ⟨xs ++ ys, ls, gs⟩ σ) :
    Rests ns l ⟨xs ++ zs, ls, gs⟩ (σ.setOperands (l.operands ++ xs.map .int ++ zs.map .int)) :=
  ⟨h.layout.setTop zs, h.idle⟩

/-- All operands give way to others. -/
theorem setStack (h : Rests ns l ⟨xs, ls, gs⟩ σ) (ys : List Int32) :
    Rests ns l ⟨ys, ls, gs⟩ (σ.setOperands (l.operands ++ ys.map .int)) :=
  ⟨h.layout.setStack ys, h.idle⟩

/-- Registers in which routines compute do not matter. -/
theorem touches (h : Rests ns l c σ) (hτ : Touches lettered σ τ) : Rests ns l c τ :=
  ⟨h.layout.touches hτ, hτ.read (by decide) h.idle⟩

/-- An operand is added. -/
theorem push (h : Rests ns l ⟨xs, ls, gs⟩ σ) (x : Int32) :
    Rests ns l ⟨xs ++ [x], ls, gs⟩ (σ.setOperands (l.operands ++ xs.map .int ++ [.int x])) := by
  have hset := h.setStack (xs ++ [x])
  rwa [List.map_append, ← List.append_assoc] at hset

end Rests

/-- The topmost operand is dropped. -/
theorem Computes.drop (h : Rests ns l ⟨xs ++ [x], ls, gs⟩ σ)
    (hrest : ∀ τ, Rests ns l ⟨xs, ls, gs⟩ τ → τ.regs = σ.regs → Computes code ns cs τ Q) :
    Computes code ns (.dropOperand :: cs) σ Q :=
  .plain (steps_dropOperand h.layout.operands_append) (hrest _ (h.setStack xs) rfl)

/-- The topmost operand is taken into `#a`. -/
theorem Computes.popA (h : Rests ns l ⟨xs ++ [x], ls, gs⟩ σ)
    (hrest : ∀ τ, Rests ns l ⟨xs, ls, gs⟩ τ → τ.regs .a = some x → Computes code ns cs τ Q) :
    Computes code ns (Compile.popA ++ cs) σ Q :=
  .plain (steps_loadTop h.layout.operands_append)
    (.drop (h.setReg rfl (by decide)) fun τ hτ hregs => hrest τ hτ (by rw [hregs]; rfl))

/-! ## Effects -/

/-- The topmost operand takes the place of the one below it if the operand above both is zero. -/
theorem computes_select {choice y : Int32} (h : Rests ns l ⟨xs ++ [x, y, choice], ls, gs⟩ σ) :
    Computes code ns (Compile.popA ++
        [(Command.setFrom (.operand (-2)) top).ifIn .a (.exact 0), .dropOperand]) σ
      (Rests ns l ⟨xs ++ [if choice = 0 then y else x], ls, gs⟩) := by
  rw [show xs ++ [x, y, choice] = (xs ++ [x, y]) ++ [choice] by simp] at h
  refine .popA h fun τ hτ ha => .ifIn contains_exact ha (fun hz => ?_) fun hne => ?_
  · rw [if_pos hz]
    have hset : Rests ns l ⟨(xs ++ [y]) ++ [y], ls, gs⟩
        (τ.setOperands (l.operands ++ xs.map .int ++ [.int y, .int y])) := by
      simpa using hτ.setTop [y, y]
    exact .plain (steps_setBelow hτ.layout.operands_append) (.drop hset fun υ hυ _ => .nil hυ)
  · rw [if_neg hne]
    rw [show xs ++ [x, y] = (xs ++ [x]) ++ [y] by simp] at hτ
    exact .drop hτ fun υ hυ _ => .nil hυ

/-- The topmost operand takes the place of a local. -/
theorem Computes.setLocal (h : Rests ns l ⟨xs ++ [x], ls, gs⟩ σ) (hi : index.toNat < ls.length)
    (hsize : ls.length ≤ 2 ^ 31)
    (hrest : ∀ τ, Rests ns l ⟨xs ++ [x], ls.set index.toNat x, gs⟩ τ → Computes code ns cs τ Q) :
    Computes code ns (.setFrom (.local index) top :: cs) σ Q := by
  have hset := h.layout.setLocals (ls.set index.toNat x)
  rw [List.map_set] at hset
  exact .plain (steps_setLocal h.layout.operands_append h.layout.frames (by rwa [List.length_map])
    (by rwa [List.length_map])) (hrest _ ⟨hset, h.idle⟩)

theorem pops_of_lowerNumeric {op : NumericOp} {lowered : Lowered}
    (h : lowerNumeric op = .ok lowered) : lowered.pops.toNat = op.operands := by
  obtain ⟨cs, hlowered⟩ := exists_lowerNumeric (mem_supportedOps h)
  cases h.symm.trans hlowered
  refine toNat_ofNat ?_
  unfold NumericOp.operands
  split <;> decide

/-- A sequence that is called comes to its end. -/
theorem Computes.callLastFound {symbol : Symbol} {ns' : String} {ds : List Command}
    (hf : code.function (symbol.qualifiedName ns) = .ok ⟨ns', ds⟩)
    (hbody : Computes code ns' ds σ Q) : Computes code ns [.call symbol] σ Q :=
  .callFound hf hbody fun _ hτ => .nil hτ

/-- **Effects.**  The commands of an instruction carry out its effect. -/
theorem computes_effect {locals : Nat} (hcode : Installed code ns m spaces) (h : Effect i c c')
    (hl : Lowers ⟨spaces, locals⟩ height i cs height') (hσ : Rests ns l c σ)
    (hlocals : c.locals.length ≤ 2 ^ 31) (hglobals : c.globals.length ≤ 2 ^ 31) :
    Computes code ns cs σ (Rests ns l c') := by
  cases h with
  | nop =>
    cases hl
    exact .nil hσ
  | drop =>
    cases hl
    exact .drop hσ fun τ hτ _ => .nil hτ
  | select =>
    cases hl
    exact computes_select hσ
  | localGet hx =>
    cases hl
    have hi := (List.getElem?_eq_some_iff.1 hx).1
    exact .plain (steps_pushLocal hσ.layout.operands hσ.layout.frames
      (by rw [List.length_map]; exact position?_index hi hlocals) (getElem?_map_int hx))
      (.nil (hσ.push _))
  | localSet hi =>
    cases hl
    exact .setLocal hσ hi hlocals fun τ hτ => .drop hτ fun υ hυ _ => .nil hυ
  | localTee hi =>
    cases hl
    exact .setLocal hσ hi hlocals fun τ hτ => .nil hτ
  | globalGet hx =>
    cases hl with
    | globalGet hg =>
      exact .callLastFound (hcode.get _ _ hg) (.plain
        (steps_pushGlobal hσ.layout.operands hσ.layout.globals hx hglobals) (.nil (hσ.push _)))
  | @globalSet index xs ls gs x hi =>
    cases hl with
    | globalSet hg hbase =>
      have hset : Rests ns l ⟨xs ++ [x], ls, gs.set index.toNat x⟩
          (σ.setGlobals ns (gs.set index.toNat x)) := ⟨hσ.layout.setGlobals _, hσ.idle⟩
      exact .callLastFound (hcode.set _ _ hg) (.plain
        (steps_setGlobal hσ.layout.operands_append hσ.layout.globals hi hglobals)
        (.drop hset fun υ hυ _ => .nil hυ))
  | i32Const =>
    cases hl
    exact .plain (.plain (.append _ _) (performs_push hσ.layout.operands _)) (.nil (hσ.push _))
  | @numeric op xs args ls gs x hargs hx =>
    cases hl with
    | numeric hop hbase =>
      obtain ⟨-, z, hz, hgives⟩ := replaces_of_lowerNumeric hcode.library hop
        (hargs.trans (pops_of_lowerNumeric hop).symm)
      -- Where WebAssembly gives a value the commands give the same; a zero divisor has none here.
      have hzx : z = x := by
        obtain h | ⟨h, -⟩ := hgives
        · exact Option.some.inj (h.symm.trans hx)
        · cases hx.symm.trans h
      subst hzx
      refine (hz ns σ _ hσ.layout.seeded hσ.layout.operands_append).mono fun τ hτ => ?_
      exact (hσ.setTop [z]).touches hτ

/-! ## Calls -/

section
variable {σ' : State} {ds : List Command} {ns' : String} {args rs gs' : List Int32} {k : Nat}
  {target : Symbol}

theorem Computes.line (h : Line code.tags ns cs σ σ') (hrest : Computes code ns ds σ' Q) :
    Computes code ns (cs ++ ds) σ Q := by
  induction h with
  | nil => exact hrest
  | cons hs _ ih => exact .plain hs (ih hrest)

/-- The layout with more operands, and with other globals. -/
def Layout.holding (l : Layout) (xs gs : List Int32) : Layout :=
  { l.over xs with globals := gs }

/-- Between calls, the operands of a function lie on those of others. -/
theorem Layout.with_eq_holding (gs' : List Int32) :
    l.with ⟨xs ++ args, ls, gs⟩ = (l.with ⟨xs, ls, gs'⟩).holding args gs := by
  simp [Layout.with, Layout.holding, Layout.over]

theorem idle_setReg : Idle (σ.setReg .brDepth noBranch) := by
  rw [Idle, State.regs_setReg, if_pos rfl]

/-- **Calls.**  A function whose body leaves results, from its arguments as locals, leaves those
    results in place of the arguments. -/
theorem computes_callSequence (hf : code.function (target.qualifiedName ns) = .ok ⟨ns', ds⟩)
    (hargs : args.length = k) (hk : k ≤ 2 ^ 31) (h : (l.holding args gs).In ns σ) (hidle : Idle σ)
    (hbody : ∀ τ, Rests ns l ⟨[], args, gs⟩ τ →
      Computes code ns' ds τ fun υ => ∃ ls, (l.with ⟨rs, ls, gs'⟩).In ns υ) :
    Computes code ns (callSequence target k) σ
      fun τ => (l.holding rs gs').In ns τ ∧ Idle τ := by
  have hfront : Line code.tags ns (callFront k) σ _ :=
    line_callFront h.operands (by rwa [List.length_map]) hk h.frames
  have hentered : Rests ns l ⟨[], args, gs⟩
      ((σ.setFrames (l.frames ++ [entries (args.map .int)])).setOperands l.operands) := by
    have hset := (h.setFrames (l.frames ++ [entries (args.map .int)])).setOperands l.operands
    exact ⟨by simpa [Layout.with, Layout.holding, Layout.over] using hset, hidle⟩
  rw [callSequence_eq]
  refine .line hfront (.callFound hf (hbody _ hentered) ?_)
  rintro τ ⟨ls, hτ⟩
  refine .plain (steps_closeFrame hτ.frames) (.set (.nil ⟨?_, idle_setReg⟩))
  exact (hτ.setFrames l.frames).setReg rfl

end

end WasmPack.Machine
