/-
  WasmPack.Proofs.Evaluation.Rules

  What WebAssembly code does, as a big-step relation on structured instructions.

  The rules are those of the WebAssembly standard for modules that import nothing
  and have no memory, with all values 32-bit integers.  A construct sees the values
  that it has taken from the operand stack and nothing below them.  A branch is an
  outcome: it counts the constructs that it has still to leave, and brings the
  operands of the place where it was set off.  There is no rule for what traps, so
  whatever has an outcome ends without a trap.

  Evaluation keeps to the numbers of values that validation counts: where code is
  gone through to its end, there are as many operands as validation says, and a
  branch finds as many as it brings.
-/
import Mathlib.Data.List.DropRight
import WasmPack.Proofs.Operators.Effects
import WasmPack.Proofs.Validation.Counts
import WasmPack.Proofs.Validation.Inversion

namespace WasmPack.Wasm

/-! ## Values and outcomes -/

/-- What code works on: its operands, the topmost last, the locals of its function, and the globals
    of the module. -/
structure Values where
  stack : List Int32
  locals : List Int32
  globals : List Int32
deriving DecidableEq

/-- How code ends. -/
inductive Outcome where
  /-- What follows is next. -/
  | next
  /-- A branch is under way that leaves as many constructs, and then goes to the label of the one
      around them. -/
  | branch (label : Nat)
  /-- The function is left. -/
  | ret
deriving DecidableEq

namespace Outcome

/-- How a construct ends whose code ends so. -/
def behind : Outcome → Outcome
  | next | branch 0 => next
  | branch (n + 1) => branch n
  | ret => ret

/-- The operands that a construct leaves over `outer`, if its code leaves `stack` and a branch to
    its label brings `arity` values. -/
def leaves (arity : Nat) (outer stack : List Int32) : Outcome → List Int32
  | next => outer ++ stack
  | branch 0 => outer ++ stack.rtake arity
  | branch (_ + 1) | ret => stack

/-- The results of a function whose code leaves `stack`; a branch that leaves more constructs than
    there are gives none. -/
def results? (arity : Nat) (stack : List Int32) : Outcome → Option (List Int32)
  | next => some stack
  | branch 0 | ret => some (stack.rtake arity)
  | branch (_ + 1) => none

end Outcome

/-! ## Instructions by themselves -/

/-- What an instruction does that neither branches, nor encloses others, nor calls a function. -/
inductive Effect : Instr → Values → Values → Prop where
  | nop {c : Values} : Effect .nop c c
  | drop {xs ls gs : List Int32} {x : Int32} : Effect .drop ⟨xs ++ [x], ls, gs⟩ ⟨xs, ls, gs⟩
  | select {xs ls gs : List Int32} {x y choice : Int32} :
    Effect .select ⟨xs ++ [x, y, choice], ls, gs⟩ ⟨xs ++ [if choice = 0 then y else x], ls, gs⟩
  | localGet {index : UInt32} {xs ls gs : List Int32} {x : Int32}
      (hx : ls[index.toNat]? = some x) :
    Effect (.localGet index) ⟨xs, ls, gs⟩ ⟨xs ++ [x], ls, gs⟩
  | localSet {index : UInt32} {xs ls gs : List Int32} {x : Int32} (hi : index.toNat < ls.length) :
    Effect (.localSet index) ⟨xs ++ [x], ls, gs⟩ ⟨xs, ls.set index.toNat x, gs⟩
  | localTee {index : UInt32} {xs ls gs : List Int32} {x : Int32} (hi : index.toNat < ls.length) :
    Effect (.localTee index) ⟨xs ++ [x], ls, gs⟩ ⟨xs ++ [x], ls.set index.toNat x, gs⟩
  | globalGet {index : UInt32} {xs ls gs : List Int32} {x : Int32}
      (hx : gs[index.toNat]? = some x) :
    Effect (.globalGet index) ⟨xs, ls, gs⟩ ⟨xs ++ [x], ls, gs⟩
  | globalSet {index : UInt32} {xs ls gs : List Int32} {x : Int32} (hi : index.toNat < gs.length) :
    Effect (.globalSet index) ⟨xs ++ [x], ls, gs⟩ ⟨xs, ls, gs.set index.toNat x⟩
  | i32Const {value : Int32} {xs ls gs : List Int32} :
    Effect (.i32Const value) ⟨xs, ls, gs⟩ ⟨xs ++ [value], ls, gs⟩
  | numeric {op : NumericOp} {xs args ls gs : List Int32} {x : Int32}
      (hargs : args.length = op.operands) (hx : op.value? args = some x) :
    Effect (.numeric op) ⟨xs ++ args, ls, gs⟩ ⟨xs ++ [x], ls, gs⟩

/-! ## Evaluation -/

/-- What is evaluated. -/
inductive Task where
  | instr (i : Instr)
  | list (body : List Instr)
  /-- The code of a loop, again and again; a branch to the loop brings `arity` values. -/
  | turns (arity : Nat) (body : List Instr)
  /-- A function, which has no locals yet.  Its arguments are the operands, and then its results. -/
  | func (index : UInt32)

/-- The type of a function that the module defines. -/
def Module.typeOf? (m : Module) (f : Func) : Option FuncType := m.types[f.typeIndex.toNat]?

/-- The label that the operand of a branch table selects. -/
def selectLabel (table : List UInt32) (default : UInt32) (choice : Int32) : UInt32 :=
  table.getD (unsigned choice) default

/-- **Evaluation.**  From some values the task comes to an outcome and to other values. -/
inductive Evaluates (m : Module) : Task → Values → Outcome → Values → Prop where
  | effect {i : Instr} {c c' : Values} (h : Effect i c c') : Evaluates m (.instr i) c .next c'
  | call {index : UInt32} {f : Func} {type : FuncType} {xs args ls gs rs gs' : List Int32}
      (hf : m.funcs[index.toNat]? = some f) (htype : m.typeOf? f = some type)
      (hargs : args.length = type.params.length)
      (h : Evaluates m (.func index) ⟨args, [], gs⟩ .next ⟨rs, [], gs'⟩) :
    Evaluates m (.instr (.call index)) ⟨xs ++ args, ls, gs⟩ .next ⟨xs ++ rs, ls, gs'⟩
  | br {label : UInt32} {c : Values} : Evaluates m (.instr (.br label)) c (.branch label.toNat) c
  | brIf {label : UInt32} {xs ls gs : List Int32} {choice : Int32} :
    Evaluates m (.instr (.brIf label)) ⟨xs ++ [choice], ls, gs⟩
      (if choice = 0 then .next else .branch label.toNat) ⟨xs, ls, gs⟩
  | brTable {table : List UInt32} {default : UInt32} {xs ls gs : List Int32} {choice : Int32} :
    Evaluates m (.instr (.brTable table default)) ⟨xs ++ [choice], ls, gs⟩
      (.branch (selectLabel table default choice).toNat) ⟨xs, ls, gs⟩
  | ret {c : Values} : Evaluates m (.instr .ret) c .ret c
  | block {type : BlockType} {body : List Instr} {counts : Counts} {o : Outcome}
      {xs args ls gs ys ls' gs' : List Int32}
      (hcounts : (m.context 0).blockCounts? type = some counts)
      (hargs : args.length = counts.params)
      (h : Evaluates m (.list body) ⟨args, ls, gs⟩ o ⟨ys, ls', gs'⟩) :
    Evaluates m (.instr (.block type body)) ⟨xs ++ args, ls, gs⟩ o.behind
      ⟨o.leaves counts.results xs ys, ls', gs'⟩
  | loop {type : BlockType} {body : List Instr} {counts : Counts} {o : Outcome}
      {xs args ls gs ys ls' gs' : List Int32}
      (hcounts : (m.context 0).blockCounts? type = some counts)
      (hargs : args.length = counts.params)
      (h : Evaluates m (.turns counts.params body) ⟨args, ls, gs⟩ o ⟨ys, ls', gs'⟩) :
    Evaluates m (.instr (.loop type body)) ⟨xs ++ args, ls, gs⟩ o
      ⟨if o = .next then xs ++ ys else ys, ls', gs'⟩
  | ifElse {type : BlockType} {consequent alternative : List Instr} {counts : Counts} {o : Outcome}
      {xs args ls gs ys ls' gs' : List Int32} {choice : Int32}
      (hcounts : (m.context 0).blockCounts? type = some counts)
      (hargs : args.length = counts.params)
      (h : Evaluates m (.list (if choice = 0 then alternative else consequent)) ⟨args, ls, gs⟩ o
        ⟨ys, ls', gs'⟩) :
    Evaluates m (.instr (.ifElse type consequent alternative)) ⟨xs ++ args ++ [choice], ls, gs⟩
      o.behind ⟨o.leaves counts.results xs ys, ls', gs'⟩
  | nil {c : Values} : Evaluates m (.list []) c .next c
  | cons {i : Instr} {rest : List Instr} {c c₁ c' : Values} {o : Outcome}
      (h : Evaluates m (.instr i) c .next c₁) (hrest : Evaluates m (.list rest) c₁ o c') :
    Evaluates m (.list (i :: rest)) c o c'
  | stop {i : Instr} {rest : List Instr} {c c' : Values} {o : Outcome}
      (h : Evaluates m (.instr i) c o c') (ho : o ≠ .next) : Evaluates m (.list (i :: rest)) c o c'
  | last {arity : Nat} {body : List Instr} {c c' : Values} {o : Outcome}
      (h : Evaluates m (.list body) c o c') (ho : o ≠ .branch 0) :
    Evaluates m (.turns arity body) c o.behind c'
  | again {arity : Nat} {body : List Instr} {c c' : Values} {o : Outcome} {ys ls gs : List Int32}
      (h : Evaluates m (.list body) c (.branch 0) ⟨ys, ls, gs⟩)
      (hagain : Evaluates m (.turns arity body) ⟨ys.rtake arity, ls, gs⟩ o c') :
    Evaluates m (.turns arity body) c o c'
  | func {index : UInt32} {f : Func} {type : FuncType} {o : Outcome}
      {args gs ys ls' gs' rs : List Int32} (hf : m.funcs[index.toNat]? = some f)
      (htype : m.typeOf? f = some type) (hargs : args.length = type.params.length)
      (h : Evaluates m (.list f.body) ⟨[], args ++ List.replicate f.locals.length 0, gs⟩ o
        ⟨ys, ls', gs'⟩) (hrs : o.results? type.results.length ys = some rs) :
    Evaluates m (.func index) ⟨args, [], gs⟩ .next ⟨rs, [], gs'⟩

/-- A function of the module, on arguments and in a state of the globals, returns results and leaves
    another state of the globals. -/
def Returns (m : Module) (index : UInt32) (args gs rs gs' : List Int32) : Prop :=
  Evaluates m (.func index) ⟨args, [], gs⟩ .next ⟨rs, [], gs'⟩


variable {m : Module} {task : Task} {c c' : Values} {o : Outcome} {labels : List Nat}
  {arity base k results : Nat} {xs ys : List Int32} {i : Instr} {s : Operands} {body : List Instr}

/-! ## Locals and globals -/

theorem Effect.lengths (h : Effect i c c') :
    c'.locals.length = c.locals.length ∧ c'.globals.length = c.globals.length := by
  cases h with
  | localSet | localTee | globalSet => simp
  | _ => exact ⟨rfl, rfl⟩

/-- There are as many locals and globals as before. -/
theorem Evaluates.lengths (h : Evaluates m task c o c') :
    c'.locals.length = c.locals.length ∧ c'.globals.length = c.globals.length := by
  induction h with
  | effect h => exact h.lengths
  | call _ _ _ _ ih => exact ⟨rfl, ih.2⟩
  | func _ _ _ _ _ ih => exact ⟨rfl, ih.2⟩
  | block _ _ _ ih | loop _ _ _ ih | ifElse _ _ _ ih | last _ _ ih | stop _ _ ih => exact ih
  | cons _ _ ih ih' | again _ _ ih ih' => exact ⟨ih'.1.trans ih.1, ih'.2.trans ih.2⟩
  | br | brIf | brTable | ret | nil => exact ⟨rfl, rfl⟩

/-! ## Functions -/

/-- A list from which nothing is left out. -/
theorem map_some_filterMap {α β : Type} {f : α → Option β} {xs : List α}
    (h : ∀ x ∈ xs, ∃ y, f x = some y) : (xs.filterMap f).map some = xs.map f := by
  induction xs with
  | nil => rfl
  | cons x xs ih =>
    obtain ⟨y, hy⟩ := h x List.mem_cons_self
    rw [List.filterMap_cons, hy, List.map_cons, List.map_cons, hy,
      ih fun x hx => h x (List.mem_cons_of_mem _ hx)]

/-- A module without imports has the types of its own functions. -/
theorem Module.Valid.funcs_context (hm : m.Valid) (himports : m.imports = []) {n : Nat}
    {type : FuncType} : (m.context k).funcs[n]? = some type ↔
      ∃ f, m.funcs[n]? = some f ∧ m.typeOf? f = some type := by
  have hfuncs : (m.context k).funcs = m.funcs.filterMap m.typeOf? := by
    unfold Module.context
    rw [himports]
    rfl
  have hmap : (m.context k).funcs.map some = m.funcs.map m.typeOf? :=
    hfuncs ▸ map_some_filterMap fun f hf => ⟨_, List.getElem?_eq_getElem (hm.funcs f hf)⟩
  have hget := congrArg (·[n]?) hmap
  simp only [List.getElem?_map] at hget
  constructor
  · intro htype
    rw [htype] at hget
    exact Option.map_eq_some_iff.1 hget.symm
  · rintro ⟨f, hf, htype⟩
    rw [hf, Option.map_some, htype] at hget
    obtain ⟨type', htype', heq⟩ := Option.map_eq_some_iff.1 hget
    exact htype'.trans heq

/-- The body of a function is one of the bodies that are validated. -/
theorem Module.mem_bodies {n : Nat} {f : Func} {type : FuncType} (hf : m.funcs[n]? = some f)
    (htype : m.typeOf? f = some type) :
    ⟨type.params.length + f.locals.length, type.results.length, f.body⟩ ∈ m.bodies := by
  refine List.mem_append_left _ (List.mem_append_left _ (List.mem_filterMap.2
    ⟨f, List.mem_of_getElem? hf, ?_⟩))
  exact Option.map_eq_some_iff.2 ⟨type, htype, rfl⟩

/-! ## Branches -/

/-- A branch under way finds as many operands as the construct that it goes to wants; `labels` are
    those around the code. -/
def Outcome.Brings (labels : List Nat) (stack : List Int32) : Outcome → Prop
  | next => True
  | branch n => ∃ arity, labels[n]? = some arity ∧ arity ≤ stack.length
  | ret => ∃ arity, labels.getLast? = some arity ∧ arity ≤ stack.length

theorem Outcome.Brings.behind (h : o.Brings (arity :: labels) ys) (hlabels : labels ≠ []) :
    o.behind.Brings labels ys := by
  match o, h with
  | .next, _ | .branch 0, _ => trivial
  | .branch (n + 1), h => exact h
  | .ret, ⟨a, ha, hle⟩ => exact ⟨a, by rwa [List.getLast?_cons_of_ne_nil hlabels] at ha, hle⟩

/-- What is left behind a construct that is not left by a branch further outward. -/
theorem Outcome.leaves_of_behind (arity : Nat) (xs ys : List Int32) (h : o.behind = .next) :
    (o = .next ∧ o.leaves arity xs ys = xs ++ ys) ∨
      (o = .branch 0 ∧ o.leaves arity xs ys = xs ++ ys.rtake arity) := by
  match o, h with
  | .next, _ => exact .inl ⟨rfl, rfl⟩
  | .branch 0, _ => exact .inr ⟨rfl, rfl⟩

/-- What is left behind a construct that is left by a branch further outward. -/
theorem Outcome.leaves_of_not_behind (h : o.behind ≠ .next) : o.leaves arity xs ys = ys := by
  match o, h with
  | .branch (_ + 1), _ | .ret, _ => rfl

theorem length_rtake (h : k ≤ ys.length) : (ys.rtake k).length = k := by
  rw [List.rtake, List.length_drop]
  omega

/-- Where live code may end, there are the results and nothing else. -/
theorem Operands.endsWith_live :
    (⟨base + k, false⟩ : Operands).endsWith base results = true ↔ k = results := by
  by_cases hle : base + results ≤ base + k
  · simp only [Operands.endsWith, Operands.pop, if_pos hle, decide_eq_true_eq]
    omega
  · have hne : k ≠ results := by omega
    simp [Operands.endsWith, Operands.pop, hle, hne]

/-! ## Counts -/

theorem selectLabel_mem (table : List UInt32) (default : UInt32) (choice : Int32) :
    selectLabel table default choice ∈ default :: table := by
  unfold selectLabel
  rw [List.getD_eq_getElem?_getD]
  cases h : table[unsigned choice]? with
  | none => exact List.mem_cons_self
  | some label => exact List.mem_cons_of_mem _ (List.mem_of_getElem? h)

theorem Effect.isStraight (h : Effect i c c') : i.isStraight = true := by
  cases h <;> rfl

/-- An instruction by itself takes and leaves as many operands as it is reckoned with. -/
theorem Effect.counts (h : Effect i c c')
    (hs : validateInstr (m.context k) labels base ⟨base + c.stack.length, false⟩ i = some s) :
    s = ⟨base + c'.stack.length, false⟩ := by
  obtain ⟨counts, hcounts, hle, rfl⟩ := (validateInstr_straight h.isStraight).1 hs
  refine congrArg (Operands.mk · false) ?_
  cases h with
  | nop | i32Const | drop | select =>
    cases hcounts
    simp at hle ⊢
    try omega
  | numeric hargs =>
    cases hcounts
    simp only [List.length_append, List.length_singleton, hargs] at hle ⊢
    omega
  | localGet | localSet | localTee | globalGet | globalSet =>
    obtain ⟨-, rfl⟩ := indexed_eq_some.1 hcounts
    simp at hle ⊢
    try omega

/-- What validation promises of a task that comes to an outcome: as many operands as it says are
    left, and a branch finds what it brings. -/
def Task.Keeps (m : Module) : Task → Values → Outcome → Values → Prop
  | .instr i, c, o, c' => ∀ {k labels base s}, labels ≠ [] →
    validateInstr (m.context k) labels base ⟨base + c.stack.length, false⟩ i = some s →
    o.Brings labels c'.stack ∧ (o = .next → s = ⟨base + c'.stack.length, false⟩)
  | .list body, c, o, c' => ∀ {k labels base s}, labels ≠ [] →
    validateList (m.context k) labels base ⟨base + c.stack.length, false⟩ body = some s →
    o.Brings labels c'.stack ∧ (o = .next → s = ⟨base + c'.stack.length, false⟩)
  | .turns arity body, c, o, c' => ∀ {k labels base results}, labels ≠ [] →
    c.stack.length = arity →
    Closes (m.context k) (arity :: labels) base (base + arity) results body →
    o.Brings labels c'.stack ∧ (o = .next → c'.stack.length = results)
  | .func index, _, _, c' => ∀ {f type}, m.funcs[index.toNat]? = some f →
    m.typeOf? f = some type → c'.stack.length = type.results.length

/-- The code of a construct leaves its results, or a branch further outward finds what it brings. -/
theorem keeps_construct (xs : List Int32) {args ls gs ls' gs' : List Int32}
    (ih : (Task.list body).Keeps m ⟨args, ls, gs⟩ o ⟨ys, ls', gs'⟩) (hlabels : labels ≠ [])
    (h : Closes (m.context k) (arity :: labels) (base + xs.length) (base + xs.length + args.length)
      results body) :
    o.behind.Brings labels ys ∧ (o = .next → ys.length = results) ∧
      (o = .branch 0 → arity ≤ ys.length) := by
  obtain ⟨s, hs, hends⟩ := h
  obtain ⟨hbrings, hnext⟩ := ih (List.cons_ne_nil _ _) hs
  refine ⟨hbrings.behind hlabels, fun ho => ?_, fun ho => ?_⟩
  · rw [hnext ho, Operands.endsWith_live] at hends
    exact hends
  · subst ho
    obtain ⟨a, ha, hle⟩ := hbrings
    cases ha
    exact hle

/-- A construct over `xs`, with as many results as a branch to it brings. -/
theorem keeps_behind {args ls gs ls' gs' : List Int32}
    (ih : (Task.list body).Keeps m ⟨args, ls, gs⟩ o ⟨ys, ls', gs'⟩) (hlabels : labels ≠ [])
    (h : Closes (m.context k) (results :: labels) (base + xs.length)
      (base + xs.length + args.length) results body) :
    o.behind.Brings labels (o.leaves results xs ys) ∧
      (o.behind = .next → (o.leaves results xs ys).length = xs.length + results) := by
  obtain ⟨hbrings, hnext, hzero⟩ := keeps_construct xs ih hlabels h
  by_cases ho : o.behind = .next
  · refine ⟨ho ▸ trivial, fun _ => ?_⟩
    obtain ⟨rfl, heq⟩ | ⟨rfl, heq⟩ := Outcome.leaves_of_behind results xs ys ho
    · rw [heq, List.length_append, hnext rfl]
    · rw [heq, List.length_append, length_rtake (hzero rfl)]
  · rw [Outcome.leaves_of_not_behind ho]
    exact ⟨hbrings, fun h => absurd h ho⟩

/-- **Counts are kept to.**  In a valid module without imports, evaluation finds and leaves as many
    operands as validation counts. -/
theorem Evaluates.keeps (hm : m.Valid) (himports : m.imports = []) (h : Evaluates m task c o c') :
    task.Keeps m c o c' := by
  induction h with
  | effect h => exact fun _ hs => ⟨trivial, fun _ => h.counts hs⟩
  | @call index f type xs args ls gs rs gs' hf htype hargs h ih =>
    intro k labels base s _ hs
    refine ⟨trivial, fun _ => ?_⟩
    obtain ⟨counts, hcounts, hle, rfl⟩ := (validateInstr_straight rfl).1 hs
    obtain ⟨type', htype', rfl⟩ := Option.map_eq_some_iff.1 hcounts
    cases ((hm.funcs_context himports).2 ⟨f, hf, htype⟩).symm.trans htype'
    have hrs : rs.length = type.results.length := ih hf htype
    refine congrArg (Operands.mk · false) ?_
    simp only [List.length_append, hargs, hrs, FuncType.counts]
    omega
  | br =>
    intro k labels base s _ hs
    obtain ⟨arity, ha, hle, -⟩ := validateInstr_br.1 hs
    exact ⟨⟨arity, ha, Nat.le_of_add_le_add_left hle⟩, fun ho => nomatch ho⟩
  -- A branch that is not taken leaves its operands; one that is taken brings as many as the label
  -- takes.
  | @brIf label xs ls gs choice =>
    intro k labels base s _ hs
    obtain ⟨arity, ha, hle, rfl⟩ := of_validate_brIf hs
    simp only [List.length_append, List.length_singleton] at hle ⊢
    split
    · exact ⟨trivial, fun _ => congrArg (Operands.mk · false) (by omega)⟩
    · exact ⟨⟨arity, ha, by omega⟩, fun ho => nomatch ho⟩
  | @brTable table default xs ls gs choice =>
    intro k labels base s _ hs
    obtain ⟨arity, ha, hle, -⟩ := of_validate_brTable hs
    simp only [List.length_append, List.length_singleton] at hle ⊢
    exact ⟨⟨arity, ha _ (selectLabel_mem table default choice), by omega⟩, fun ho => nomatch ho⟩
  | ret =>
    intro k labels base s _ hs
    obtain ⟨arity, ha, hle, -⟩ := validateInstr_ret.1 hs
    exact ⟨⟨arity, ha, Nat.le_of_add_le_add_left hle⟩, fun ho => nomatch ho⟩
  | @block type body counts o xs args ls gs ys ls' gs' hcounts hargs h ih =>
    intro k labels base s hlabels hs
    obtain ⟨counts', hcounts', -, hcloses, rfl⟩ := of_validate_block hs
    cases hcounts.symm.trans hcounts'
    simp only [List.length_append, hargs] at hcloses ⊢
    rw [← Nat.add_assoc, Nat.add_sub_cancel] at hcloses
    obtain ⟨hbrings, hnext⟩ := keeps_behind ih hlabels (hargs ▸ hcloses)
    refine ⟨hbrings, fun ho => congrArg (Operands.mk · false) ?_⟩
    rw [hnext ho]
    omega
  -- A loop has consumed its turns: what is left of its outcome never aims at the loop itself.
  | @loop type body counts o xs args ls gs ys ls' gs' hcounts hargs h ih =>
    intro k labels base s hlabels hs
    obtain ⟨counts', hcounts', -, hcloses, rfl⟩ := of_validate_loop hs
    cases hcounts.symm.trans hcounts'
    simp only [List.length_append, hargs] at hcloses ⊢
    rw [← Nat.add_assoc, Nat.add_sub_cancel] at hcloses
    obtain ⟨hbrings, hnext⟩ := ih hlabels hargs hcloses
    by_cases ho : o = .next
    · subst ho
      refine ⟨trivial, fun _ => congrArg (Operands.mk · false) ?_⟩
      rw [if_pos rfl, List.length_append, hnext rfl]
      omega
    · rw [if_neg ho]
      exact ⟨hbrings, fun h => absurd h ho⟩
  | @ifElse type consequent alternative counts o xs args ls gs ys ls' gs' choice hcounts hargs h
      ih =>
    intro k labels base s hlabels hs
    obtain ⟨counts', hcounts', -, hcloses, rfl⟩ := of_validate_ifElse hs
    cases hcounts.symm.trans hcounts'
    -- Both arms close, so the one that is taken does.
    have harm := hcloses (if choice = 0 then alternative else consequent) (by split <;> simp)
    simp only [List.length_append, List.length_singleton, hargs] at harm ⊢
    rw [show base + (xs.length + counts.params + 1) - 1 = base + xs.length + counts.params by omega,
      Nat.add_sub_cancel] at harm
    obtain ⟨hbrings, hnext⟩ := keeps_behind ih hlabels (hargs ▸ harm)
    refine ⟨hbrings, fun ho => congrArg (Operands.mk · false) ?_⟩
    rw [hnext ho]
    omega
  | nil => exact fun _ hs => ⟨trivial, fun _ => (Option.some.inj hs).symm⟩
  | cons h hrest ih ih' =>
    intro k labels base s hlabels hs
    obtain ⟨t, ht, hs⟩ := validateList_cons.1 hs
    obtain ⟨-, hnext⟩ := ih hlabels ht
    rw [hnext rfl] at hs
    exact ih' hlabels hs
  | stop h ho ih =>
    intro k labels base s hlabels hs
    obtain ⟨t, ht, -⟩ := validateList_cons.1 hs
    exact ⟨(ih hlabels ht).1, fun h => absurd h ho⟩
  | last h ho ih =>
    intro k labels base results hlabels hlen hcloses
    obtain ⟨hbrings, hnext, -⟩ := keeps_construct [] ih hlabels (hlen ▸ hcloses)
    refine ⟨hbrings, fun hbehind => ?_⟩
    obtain ⟨hn, -⟩ | ⟨hz, -⟩ := Outcome.leaves_of_behind 0 [] [] hbehind
    · exact hnext hn
    · exact absurd hz ho
  | again h hagain ih ih' =>
    intro k labels base results hlabels hlen hcloses
    obtain ⟨-, -, hzero⟩ := keeps_construct [] ih hlabels (hlen ▸ hcloses)
    exact ih' hlabels (length_rtake (hlen ▸ hzero rfl)) hcloses
  -- A body ends by falling through, by a branch to its own label or by a return; all three leave
  -- the results.
  | @func index f type o args gs ys ls' gs' rs hf htype hargs h hrs ih =>
    intro f' type' hf' htype'
    cases hf.symm.trans hf'
    cases htype.symm.trans htype'
    obtain ⟨s, hs, hends⟩ := hm.bodies _ (Module.mem_bodies hf htype)
    obtain ⟨hbrings, hnext⟩ := ih (List.cons_ne_nil _ _) hs
    match o, hrs, hbrings, hnext with
    | .next, hrs, _, hnext =>
      cases hrs
      rw [hnext rfl, Operands.endsWith_live] at hends
      exact hends
    | .branch 0, hrs, ⟨a, ha, hle⟩, _ | .ret, hrs, ⟨a, ha, hle⟩, _ =>
      cases hrs
      cases ha
      exact length_rtake hle

end WasmPack.Wasm
