/-
  WasmPack.Proofs.Validation.Visits

  The places in a body that code generation comes to, each with the height of
  the operand stack it reckons with there.  Where the recursion goes is read off
  the steps it takes, whatever fragments there are already.

  That these are the places where code generation works is shown by its outcome.
  It succeeds at every place that it comes to if it succeeds as a whole; and if it
  fails, then it is at one of these places that an instruction is refused, for
  itself and not for the code that it encloses, with the same error.
-/
import WasmPack.Proofs.Compile.Inversion
import WasmPack.Proofs.Validation.Counts

namespace WasmPack

/-- The instruction without the code that it encloses. -/
def Wasm.Instr.shell : Instr → Instr
  | .block type _ => .block type []
  | .loop type _ => .loop type []
  | .ifElse type _ _ => .ifElse type [] []
  | i => i

namespace Compile

open Wasm

/-- The height behind an instruction, if the next one is looked at. -/
def Flow.height? : Flow → Option UInt32
  | .next height | .guarded height _ _ => some height
  | .stop _ => none

/-- Where code generation stands: the arguments of `lowerList`, and how many values the list is to
    leave above the height of the innermost label. -/
structure Point where
  depth : Nat
  labels : List Label
  height : UInt32
  results : UInt32
  code : List Instr

/-- Code generation that starts at a point comes to another, by the turns of a position. -/
inductive Visits (scope : Scope) : Point → Position → Point → Prop where
  | here (p : Point) : Visits scope p [] p
  | behind {depth : Nat} {labels : List Label} {height next results : UInt32} {i : Instr}
      {rest : List Instr} {step : Step} {pool pool' : Pool} {pos : Position} {p : Point}
      (hstep : lowerInstr scope depth labels height i pool = .ok (step, pool'))
      (hnext : step.flow.height? = some next)
      (h : Visits scope ⟨depth, labels, next, results, rest⟩ pos p) :
      Visits scope ⟨depth, labels, height, results, i :: rest⟩ (.behind :: pos) p
  | block {depth : Nat} {labels : List Label} {height base results : UInt32} {type : BlockType}
      {body rest : List Instr} {arity : Arity} {pos : Position} {p : Point}
      (harity : scope.spaces.blockArity type = .ok arity)
      (hbase : below "block" height arity.params = .ok base)
      (h : Visits scope
        ⟨depth + 1, labels ++ [⟨base, arity.results⟩], height, arity.results, body⟩ pos p) :
      Visits scope ⟨depth, labels, height, results, .block type body :: rest⟩ (.inside :: pos) p
  | loop {depth : Nat} {labels : List Label} {height base results : UInt32} {type : BlockType}
      {body rest : List Instr} {arity : Arity} {pos : Position} {p : Point}
      (harity : scope.spaces.blockArity type = .ok arity)
      (hbase : below "loop" height arity.params = .ok base)
      (h : Visits scope
        ⟨depth + 1, labels ++ [⟨base, arity.params⟩], height, arity.results, body⟩ pos p) :
      Visits scope ⟨depth, labels, height, results, .loop type body :: rest⟩ (.inside :: pos) p
  | ifElse {depth : Nat} {labels : List Label} {height top base results : UInt32}
      {type : BlockType} {consequent alternative rest : List Instr} {arity : Arity} {turn : Turn}
      {pos : Position} {p : Point}
      (harity : scope.spaces.blockArity type = .ok arity)
      (htop : below "if" height 1 = .ok top) (hbase : below "if" top arity.params = .ok base)
      (hturn : turn ≠ .behind)
      (h : Visits scope ⟨depth + 1, labels ++ [⟨base, arity.results⟩], top, arity.results,
        if turn = .inside then consequent else alternative⟩ pos p) :
      Visits scope ⟨depth, labels, height, results, .ifElse type consequent alternative :: rest⟩
        (turn :: pos) p

/-- Where code generation for a body starts: in front of its first instruction, with the body
    itself as the only label. -/
def start (b : Body) : Point :=
  ⟨0, [⟨0, UInt32.ofNat b.results⟩], 0, UInt32.ofNat b.results, b.code⟩

variable {scope : Scope} {p q : Point} {pos : Position} {e : CompileError} {depth : Nat}
  {labels : List Label} {height label results : UInt32} {i : Instr}
  {body consequent alternative rest : List Instr} {type : BlockType} {pool pool' pool₁ : Pool}
  {step : Step} {b : Block} {mnemonic : String}

/-! ## Success -/

theorem height?_escape {target : Nat} : (escape depth target height).height? = some height := by
  unfold escape
  split <;> rfl

theorem height?_of_lowerLoop (h : lowerLoop depth b height pool = .ok (step, pool')) :
    step.flow.height? = some height := by
  rcases lowerLoop_eq_ok.1 h with ⟨-, rfl, -⟩ | ⟨-, rfl, -⟩ <;> exact height?_escape

/-- The height behind an instruction does not depend on the fragments in front of it. -/
theorem height?_eq {step₁ : Step} {pool₂ : Pool}
    (h : lowerInstr scope depth labels height i pool = .ok (step, pool'))
    (h' : lowerInstr scope depth labels height i pool₁ = .ok (step₁, pool₂)) :
    step.flow.height? = step₁.flow.height? := by
  cases i with
  | unreachable =>
    obtain ⟨rfl, -⟩ := lowerInstr_unreachable.1 h
    obtain ⟨rfl, -⟩ := lowerInstr_unreachable.1 h'
    rfl
  -- Heights come from the arity and from the height before, not from the pool.
  | block type body =>
    obtain ⟨arity, b, next, harity, -, -, -, hnext, rfl⟩ := lowerInstr_block.1 h
    obtain ⟨arity', b', next', harity', -, -, -, hnext', rfl⟩ := lowerInstr_block.1 h'
    cases harity.symm.trans harity'
    cases hnext.symm.trans hnext'
    exact height?_escape.trans height?_escape.symm
  | loop type body =>
    obtain ⟨arity, b, next, _, harity, -, -, -, hnext, hloop⟩ := lowerInstr_loop.1 h
    obtain ⟨arity', b', next', _, harity', -, -, -, hnext', hloop'⟩ := lowerInstr_loop.1 h'
    cases harity.symm.trans harity'
    cases hnext.symm.trans hnext'
    rw [height?_of_lowerLoop hloop, height?_of_lowerLoop hloop']
  | ifElse type consequent alternative =>
    obtain ⟨arity, _, _, next, _, _, _, _, _, harity, -, -, -, -, -, -, -, hnext, rfl⟩ :=
      lowerInstr_ifElse.1 h
    obtain ⟨arity', _, _, next', _, _, _, _, _, harity', -, -, -, -, -, -, -, hnext', rfl⟩ :=
      lowerInstr_ifElse.1 h'
    cases harity.symm.trans harity'
    cases hnext.symm.trans hnext'
    exact height?_escape.trans height?_escape.symm
  | br label =>
    obtain ⟨_, _, -, -, rfl⟩ := lowerBr_eq_ok.1 (lowerInstr_br.1 h).1
    obtain ⟨_, _, -, -, rfl⟩ := lowerBr_eq_ok.1 (lowerInstr_br.1 h').1
    rfl
  | brIf label =>
    rw [lowerInstr_brIf] at h h'
    obtain ⟨_, _, -, -, rfl⟩ := lowerBrIf_eq_ok.1 h
    obtain ⟨_, _, -, -, rfl⟩ := lowerBrIf_eq_ok.1 h'
    rfl
  | brTable table default =>
    rw [lowerInstr_brTable] at h h'
    obtain ⟨_, _, _, _, _, -, -, -, rfl⟩ := lowerBrTable_eq_ok.1 h
    obtain ⟨_, _, _, _, _, -, -, -, rfl⟩ := lowerBrTable_eq_ok.1 h'
    rfl
  | ret =>
    obtain ⟨_, _, -, -, rfl⟩ := lowerBr_eq_ok.1 (lowerInstr_ret.1 h).1
    obtain ⟨_, _, -, -, rfl⟩ := lowerBr_eq_ok.1 (lowerInstr_ret.1 h').1
    rfl
  | _ =>
    obtain ⟨_, _, hcs, rfl, -⟩ := (lowerInstr_straight rfl).1 h
    obtain ⟨_, _, hcs', rfl, -⟩ := (lowerInstr_straight rfl).1 h'
    cases hcs.symm.trans hcs'
    rfl

/-- What follows an instruction has been lowered, at the height behind the instruction. -/
theorem Continues.exists_rest {next : UInt32}
    (h : Continues scope depth labels rest step pool b pool')
    (hnext : step.flow.height? = some next) :
    ∃ pool₁ r, lowerList scope depth labels next rest pool₁ = .ok r := by
  cases h with
  | next hflow h =>
    rw [hflow] at hnext
    cases hnext
    exact ⟨_, _, h⟩
  | last hflow hrest =>
    subst hrest
    exact ⟨pool, _, rfl⟩
  | guarded hflow hrest h =>
    rw [hflow] at hnext
    cases hnext
    exact ⟨_, _, h⟩
  | stop hflow =>
    rw [hflow] at hnext
    cases hnext

/-- Code generation succeeds wherever it comes to, if it succeeds where it starts. -/
theorem Visits.exists_ok (hv : Visits scope p pos q) {r : Block × Pool}
    (h : lowerList scope p.depth p.labels p.height p.code pool = .ok r) :
    ∃ pool' r', lowerList scope q.depth q.labels q.height q.code pool' = .ok r' := by
  induction hv generalizing pool r with
  | here p => exact ⟨pool, r, h⟩
  | behind hstep hnext _ ih =>
    obtain ⟨step, pool₁, hstep', h⟩ := lowerList_cons.1 h
    obtain ⟨pool₂, r', h⟩ := h.exists_rest ((height?_eq hstep' hstep).trans hnext)
    exact ih h
  -- Inside a construct the walk has computed the same arity and height as the lowering.
  | block harity hbase _ ih =>
    obtain ⟨step, pool₁, hstep, -⟩ := lowerList_cons.1 h
    obtain ⟨arity, b, next, harity', -, -, hb, -⟩ := lowerInstr_block.1 hstep
    cases harity.symm.trans harity'
    obtain ⟨-, rfl⟩ := below_eq_ok.1 hbase
    exact ih hb
  | loop harity hbase _ ih =>
    obtain ⟨step, pool₁, hstep, -⟩ := lowerList_cons.1 h
    obtain ⟨arity, b, next, _, harity', -, -, hb, -⟩ := lowerInstr_loop.1 hstep
    cases harity.symm.trans harity'
    obtain ⟨-, rfl⟩ := below_eq_ok.1 hbase
    exact ih hb
  | ifElse harity htop hbase hturn _ ih =>
    obtain ⟨step, pool₁, hstep, -⟩ := lowerList_cons.1 h
    obtain ⟨arity, _, _, next, _, _, _, _, _, harity', -, -, -, hfirst, hsecond, -⟩ :=
      lowerInstr_ifElse.1 hstep
    cases harity.symm.trans harity'
    obtain ⟨-, rfl⟩ := below_eq_ok.1 htop
    obtain ⟨-, rfl⟩ := below_eq_ok.1 hbase
    split at ih
    · exact ih hfirst
    · exact ih hsecond

/-- An instruction that is accepted with the code that it encloses is accepted without. -/
theorem exists_shell_ok (h : lowerInstr scope depth labels height i pool = .ok (step, pool')) :
    ∃ r, lowerInstr scope depth labels height i.shell pool = .ok r := by
  cases i with
  | block type body =>
    obtain ⟨arity, b, next, harity, hle, hnest, -, hnext, -⟩ := lowerInstr_block.1 h
    exact ⟨_, lowerInstr_block.2 ⟨arity, _, next, harity, hle, hnest, rfl, hnext, rfl⟩⟩
  | loop type body =>
    obtain ⟨arity, b, next, _, harity, hle, hnest, -, hnext, -⟩ := lowerInstr_loop.1 h
    -- Code without a branch is no fragment.
    exact ⟨_, lowerInstr_loop.2 ⟨arity, _, next, pool, harity, hle, hnest, rfl, hnext,
      lowerLoop_eq_ok.2 (.inr ⟨Nat.lt_of_le_of_lt hnest (by decide), rfl, rfl⟩)⟩⟩
  | ifElse type consequent alternative =>
    obtain ⟨arity, _, _, next, _, _, _, _, _, harity, hle, hle', hnest, -, -, -, -, hnext, -⟩ :=
      lowerInstr_ifElse.1 h
    exact ⟨_, lowerInstr_ifElse.2 ⟨arity, _, _, next, pool, pool, _, _, pool, harity, hle, hle',
      hnest, rfl, rfl, .none, .none, hnext, rfl⟩⟩
  | _ => exact ⟨_, h⟩

/-! ## Failure -/

theorem gen_bind_eq_error {α β : Type} {x : Gen α} {f : α → Gen β} :
    (x >>= f) pool = .error e ↔
      x pool = .error e ∨ ∃ a pool₁, x pool = .ok (a, pool₁) ∧ f a pool₁ = .error e := by
  show (x pool >>= fun r => f r.1 r.2) = _ ↔ _
  rw [except_bind_eq_error]
  refine or_congr Iff.rfl ⟨?_, ?_⟩
  · rintro ⟨⟨a, pool₁⟩, hx, hf⟩
    exact ⟨a, pool₁, hx, hf⟩
  · rintro ⟨a, pool₁, hx, hf⟩
    exact ⟨(a, pool₁), hx, hf⟩

theorem gen_lift_bind_eq_error {α β : Type} {x : Except CompileError α} {f : α → Gen β} :
    ((x : Gen α) >>= f) pool = .error e ↔ x = .error e ∨ ∃ a, x = .ok a ∧ f a pool = .error e := by
  cases x with
  | error e' =>
    refine ⟨fun h => .inl ?_, ?_⟩
    · cases h
      rfl
    · rintro (⟨⟨⟩⟩ | ⟨_, ⟨⟩, _⟩)
      rfl
  | ok a =>
    refine ⟨fun h => .inr ⟨a, rfl, h⟩, ?_⟩
    rintro (⟨⟨⟩⟩ | ⟨_, ⟨⟩, h⟩)
    exact h

/-- If one generation fails, then for a certain reason, or another fails with the same error.  It
    does not matter which fragments there are for either. -/
def Blames (R : CompileError → Prop) {α : Type} (x y : Gen α) : Prop :=
  ∀ pool pool' e, x pool = .error e → R e ∨ y pool' = .error e

namespace Blames

variable {R : CompileError → Prop} {α β : Type}

theorem of_ok {x y : Gen α} (h : ∀ pool, ∃ r, x pool = .ok r) : Blames R x y := by
  intro pool pool' e hx
  obtain ⟨r, hr⟩ := h pool
  cases hx.symm.trans hr

theorem pure {a : α} {y : Gen α} : Blames R (Pure.pure a) y := .of_ok fun _ => ⟨_, rfl⟩

theorem lift {x : Except CompileError α} : Blames R (x : Gen α) (x : Gen α) := by
  intro pool pool' e h
  cases x with
  | error e' =>
    cases h
    exact .inr rfl
  | ok a => cases h

/-- A step that may refuse the module refuses it in both. -/
theorem lift_bind {x : Except CompileError α} {f g : α → Gen β}
    (h : ∀ a, x = .ok a → Blames R (f a) (g a)) :
    Blames R ((x : Gen α) >>= f) ((x : Gen α) >>= g) := by
  intro pool pool' e hx
  obtain hx | ⟨a, ha, hf⟩ := gen_lift_bind_eq_error.1 hx
  · exact .inr (gen_lift_bind_eq_error.2 (.inl hx))
  · exact (h a ha pool pool' e hf).imp_right fun hg => gen_lift_bind_eq_error.2 (.inr ⟨a, ha, hg⟩)

theorem bind {x y : Gen α} {f g : α → Gen β} (hx : Blames R x y) (hy : Blames (fun _ => False) y x)
    (h : ∀ a b, Blames R (f a) (g b)) : Blames R (x >>= f) (y >>= g) := by
  intro pool pool' e hxf
  obtain hxf | ⟨a, pool₁, ha, hf⟩ := gen_bind_eq_error.1 hxf
  · exact (hx pool pool' e hxf).imp_right fun hyg => gen_bind_eq_error.2 (.inl hyg)
  cases hyg : y pool' with
  | error e' =>
    obtain h | h := hy pool' pool e' hyg
    · exact h.elim
    · cases h.symm.trans ha
  | ok r =>
    exact (h a r.1 pool₁ r.2 e hf).imp_right fun hg => gen_bind_eq_error.2 (.inr ⟨_, _, hyg, hg⟩)

theorem discard_lift {x : Except CompileError α} :
    Blames R (discard (x : Gen α)) (discard (x : Gen α)) := by
  intro pool pool' e h
  cases x with
  | error e' =>
    cases h
    exact .inr rfl
  | ok a => cases h

end Blames

section Branches

variable {R : CompileError → Prop} {condition : List Modifier} {n : Nat} {table : List UInt32}
  {default : UInt32}

/-- Commands become one without fail. -/
theorem exists_asOne (cs : List Command) (pool : Pool) : ∃ r, asOne cs pool = .ok r := by
  match cs with
  | [] => exact ⟨_, rfl⟩
  | [c] => exact ⟨_, rfl⟩
  | c :: d :: cs => exact ⟨_, rfl⟩

theorem blames_branchIf : Blames R (branchIf mnemonic depth labels height label condition)
    (branchIf mnemonic depth labels height label condition) :=
  .lift_bind fun _ _ => .lift_bind fun cs _ => .bind (.of_ok (exists_asOne cs))
    (.of_ok (exists_asOne cs)) fun _ _ => .pure

theorem blames_branchCases : Blames R (branchCases mnemonic depth labels height n table)
    (branchCases mnemonic depth labels height n table) := by
  induction table generalizing R n with
  | nil => exact .pure
  | cons label table ih =>
    exact .bind blames_branchIf blames_branchIf fun _ _ => .bind ih ih fun _ _ => .pure

theorem blames_lowerBrIf : Blames R (lowerBrIf mnemonic depth labels height label)
    (lowerBrIf mnemonic depth labels height label) :=
  .bind .discard_lift .discard_lift fun _ _ => .lift_bind fun _ _ =>
    .bind blames_branchIf blames_branchIf fun _ _ => .pure

theorem blames_lowerBrTable : Blames R (lowerBrTable mnemonic depth labels height table default)
    (lowerBrTable mnemonic depth labels height table default) :=
  .lift_bind fun _ _ => .bind blames_branchCases blames_branchCases fun _ _ =>
    .bind blames_branchIf blames_branchIf fun _ _ => .pure

end Branches

theorem exists_lowerLoop (depth : Nat) (b : Block) (height : UInt32) (pool : Pool) :
    ∃ r, lowerLoop depth b height pool = .ok r := by
  rcases Nat.lt_or_ge (depth + 1) b.target with hlt | hge
  · exact ⟨_, lowerLoop_eq_ok.2 (.inr ⟨hlt, rfl, rfl⟩)⟩
  · exact ⟨_, lowerLoop_eq_ok.2 (.inl ⟨hge, rfl, rfl⟩)⟩

/-- The first instruction at a point is refused for itself, whatever fragments there are. -/
def Point.Refused (scope : Scope) (p : Point) (e : CompileError) : Prop :=
  ∃ i rest, p.code = i :: rest ∧
    ∀ pool, lowerInstr scope p.depth p.labels p.height i.shell pool = .error e

/-- Code generation comes to an instruction that is refused for itself. -/
def Point.Fails (scope : Scope) (p : Point) (e : CompileError) : Prop :=
  ∃ pos q, Visits scope p pos q ∧ q.Refused scope e

/-- An instruction is refused where it stands, or where its code is. -/
theorem Blames.fails
    (h : Blames (Point.Fails scope ⟨depth, labels, height, results, i :: rest⟩)
      (lowerInstr scope depth labels height i) (lowerInstr scope depth labels height i.shell))
    (he : lowerInstr scope depth labels height i pool = .error e) :
    Point.Fails scope ⟨depth, labels, height, results, i :: rest⟩ e := by
  by_cases hfails : Point.Fails scope ⟨depth, labels, height, results, i :: rest⟩ e
  · exact hfails
  · exact ⟨[], _, .here _, i, rest, rfl, fun pool' => (h pool pool' e he).resolve_left hfails⟩

mutual

theorem blames_lowerInstr : ∀ (i : Instr) {depth : Nat} {labels : List Label}
    {height results : UInt32} {rest : List Instr},
    Blames (Point.Fails scope ⟨depth, labels, height, results, i :: rest⟩)
      (lowerInstr scope depth labels height i) (lowerInstr scope depth labels height i.shell)
  | .block _ body, _, _, _, _, _ =>
    .lift_bind fun _ harity => .lift_bind fun _ hbase => .lift_bind fun _ _ =>
      .bind (fun _ _ _ h =>
        let ⟨pos, q, hq, hrefused⟩ := fails_of_lowerList body h
        .inl ⟨.inside :: pos, q, .block harity hbase hq, hrefused⟩)
        (.of_ok fun _ => ⟨_, rfl⟩) fun _ _ => .lift_bind fun _ _ => .pure
  | .loop _ body, _, _, _, _, _ =>
    .lift_bind fun _ harity => .lift_bind fun _ hbase => .lift_bind fun _ _ =>
      .bind (fun _ _ _ h =>
        let ⟨pos, q, hq, hrefused⟩ := fails_of_lowerList body h
        .inl ⟨.inside :: pos, q, .loop harity hbase hq, hrefused⟩)
        (.of_ok fun _ => ⟨_, rfl⟩) fun _ _ => .lift_bind fun _ _ => .of_ok (exists_lowerLoop _ _ _)
  | .ifElse _ consequent alternative, _, _, _, _, _ =>
    .lift_bind fun _ harity => .lift_bind fun _ htop => .lift_bind fun _ hbase =>
      .lift_bind fun _ _ => .bind (fun _ _ _ h =>
          let ⟨pos, q, hq, hrefused⟩ := fails_of_lowerList consequent h
          .inl ⟨.inside :: pos, q, .ifElse harity htop hbase (nomatch ·) hq, hrefused⟩)
        (.of_ok fun _ => ⟨_, rfl⟩) fun _ _ => .bind (fun _ _ _ h =>
          let ⟨pos, q, hq, hrefused⟩ := fails_of_lowerList alternative h
          .inl ⟨.otherwise :: pos, q, .ifElse harity htop hbase (nomatch ·) hq, hrefused⟩)
        (.of_ok fun _ => ⟨_, rfl⟩) fun _ _ =>
          .bind (.of_ok (exists_asOne _)) (.of_ok (exists_asOne _)) fun _ _ =>
            .bind (.of_ok (exists_asOne _)) (.of_ok (exists_asOne _)) fun _ _ =>
              .lift_bind fun _ _ => .pure
  | .unreachable, _, _, _, _, _ => .pure
  | .br _, _, _, _, _, _ | .ret, _, _, _, _, _ => .lift
  | .brIf _, _, _, _, _, _ => blames_lowerBrIf
  | .brTable _ _, _, _, _, _, _ => blames_lowerBrTable
  | .nop, _, _, _, _, _ | .call _, _, _, _, _, _ | .callIndirect _ _, _, _, _, _, _
  | .drop, _, _, _, _, _ | .select, _, _, _, _, _ | .localGet _, _, _, _, _, _
  | .localSet _, _, _, _, _, _ | .localTee _, _, _, _, _, _ | .globalGet _, _, _, _, _, _
  | .globalSet _, _, _, _, _, _ | .load _ _, _, _, _, _, _ | .store _ _, _, _, _, _, _
  | .memorySize _, _, _, _, _, _ | .memoryGrow _, _, _, _, _, _ | .i32Const _, _, _, _, _, _
  | .i64Const _, _, _, _, _, _ | .f32Const _, _, _, _, _, _ | .f64Const _, _, _, _, _, _
  | .numeric _, _, _, _, _, _ => .lift_bind fun _ _ => .pure
termination_by structural i => i

/-- **Where code generation fails.**  If a list of instructions is refused, then code generation
    comes to an instruction that is refused for itself, with the same error. -/
theorem fails_of_lowerList : ∀ (body : List Instr) {depth : Nat} {labels : List Label}
    {height results : UInt32} {pool : Pool} {e : CompileError},
    lowerList scope depth labels height body pool = .error e →
      Point.Fails scope ⟨depth, labels, height, results, body⟩ e
  | [], _, _, _, _, _, _, h => nomatch h
  | i :: rest, depth, labels, height, results, pool, e, h => by
    -- An instruction is refused at its own point or at one inside it, a rest at a point behind.
    obtain h | ⟨step, pool₁, hstep, h⟩ := gen_bind_eq_error.1 h
    · exact (blames_lowerInstr i).fails h
    have hrest : ∀ {next pool}, step.flow.height? = some next →
        lowerList scope depth labels next rest pool = .error e →
          Point.Fails scope ⟨depth, labels, height, results, i :: rest⟩ e := by
      intro next pool hnext h
      obtain ⟨pos, q, hq, hrefused⟩ := fails_of_lowerList rest h
      exact ⟨.behind :: pos, q, .behind hstep hnext hq, hrefused⟩
    cases hflow : step.flow with
    | next next =>
      rw [hflow] at h
      obtain h | ⟨_, _, -, h⟩ := gen_bind_eq_error.1 h
      · exact hrest (by rw [hflow]; rfl) h
      · cases h
    | guarded next target guard =>
      rw [hflow] at h
      simp only at h
      split at h
      · cases h
      · obtain h | ⟨id, pool₂, -, h⟩ := gen_bind_eq_error.1 h
        · cases h
        obtain h | ⟨_, _, -, h⟩ := gen_bind_eq_error.1 h
        · exact hrest (by rw [hflow]; rfl) h
        · obtain h | ⟨_, _, -, h⟩ := gen_bind_eq_error.1 h <;> cases h
    | stop target =>
      rw [hflow] at h
      cases h
termination_by structural body => body

end

/-- **The places that code generation comes to** are those where it works: a list of instructions
    is accepted exactly if at none of them an instruction is refused for itself. -/
theorem lowerList_accepted_iff :
    (∃ r, lowerList scope p.depth p.labels p.height p.code pool = .ok r) ↔
      ∀ pos q e, Visits scope p pos q → ¬ q.Refused scope e := by
  constructor
  · rintro ⟨r, hr⟩ pos q e hq ⟨i, rest, hcode, hrefused⟩
    obtain ⟨pool', r', hr'⟩ := hq.exists_ok hr
    rw [hcode] at hr'
    obtain ⟨step, pool₁, hstep, -⟩ := lowerList_cons.1 hr'
    obtain ⟨r₁, hr₁⟩ := exists_shell_ok hstep
    cases (hrefused pool').symm.trans hr₁
  · intro h
    cases hr : lowerList scope p.depth p.labels p.height p.code pool with
    | ok r => exact ⟨r, rfl⟩
    | error e =>
      have hfails : p.Fails scope e := fails_of_lowerList p.code hr
      obtain ⟨pos, q, hq, hrefused⟩ := hfails
      exact absurd hrefused (h pos q e hq)

end Compile

end WasmPack
