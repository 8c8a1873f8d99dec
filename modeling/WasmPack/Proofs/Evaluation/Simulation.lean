/-
  WasmPack.Proofs.Evaluation.Simulation

  Compiled code does what WebAssembly code does, by induction on the evaluation:
  one lemma for each of its rules.
-/
import WasmPack.Proofs.Evaluation.Constructs

namespace WasmPack

namespace Machine

open Compile Wasm
open Nbt (entries append_top)

variable {code : Code} {ns : String} {m : Module} {spaces : IndexSpaces} {l : Layout}
  {outer xs ys args rs ls gs ls' gs' : List Int32} {depth n : Nat} {o : Outcome}
  {v v₁ v' : Values} {σ τ : State} {labels : List Label} {height label : UInt32}
  {i : Instr} {rest body : List Instr} {st : Stand} {step : Step} {pool pool' : Pool} {b : Block}
  {bound : Bound} {type : BlockType} {counts : Counts}

/-- Compiled code of a task does the task, wherever it stands and whatever is around it. -/
def Simulates (code : Code) (ns : String) (m : Module) (spaces : IndexSpaces) :
    Task → Values → Outcome → Values → Prop
  | .instr i, v, o, v' => ∀ {depth labels height results rest st outer step pool pool'},
    Placed m ⟨depth, labels, height, results, i :: rest⟩ st outer v →
    lowerInstr ⟨spaces, v.locals.length⟩ depth labels height i pool = .ok (step, pool') →
    Resolved code ns pool pool' → ∀ {l σ}, Rests ns (l.over outer) v σ →
    Computes code ns step.commands σ fun τ =>
      Arrives ns l outer depth st.bounds step.flow.target o v' τ ∧ Admits step.flow o τ
  | .list body, v, o, v' => ∀ {depth labels height results st outer b pool pool'},
    Placed m ⟨depth, labels, height, results, body⟩ st outer v →
    lowerList ⟨spaces, v.locals.length⟩ depth labels height body pool = .ok (b, pool') →
    Resolved code ns pool pool' → ∀ {l σ}, Rests ns (l.over outer) v σ →
    Computes code ns b.commands σ (Arrives ns l outer depth st.bounds b.target o v')
  | .turns arity body, v, o, v' => ∀ {depth labels height results st outer bounds b next step
      pool pool₁ pool'},
    Placed m ⟨depth + 1, labels, height, results, body⟩ st outer v → v.stack.length = arity →
    st.bounds = ⟨outer.length, arity⟩ :: bounds →
    lowerList ⟨spaces, v.locals.length⟩ (depth + 1) labels height body pool = .ok (b, pool₁) →
    Resolved code ns pool pool₁ →
    lowerLoop depth b next pool₁ = .ok (step, pool') → Resolved code ns pool₁ pool' →
    ∀ {l σ}, ((l.over outer).with v).In ns σ → (depth + 1 < b.target → Idle σ) →
    Computes code ns step.commands σ (Arrives ns l outer depth bounds b.target o v')
  | .func index, v, _, v' => ∃ cs,
    code.function ((Symbol.func index).qualifiedName ns) = .ok ⟨ns, cs⟩ ∧
      ∀ {l σ}, Rests ns l ⟨[], v.stack, v.globals⟩ σ →
        Computes code ns cs σ fun τ => ∃ ls, (l.with ⟨v'.stack, ls, v'.globals⟩).In ns τ

/-! ## Branches -/

/-- A branch that is set off arrives. -/
theorem computes_jump (hlabel : o.label? depth = some n) (hb : st.bounds[n]? = some bound)
    (hbase : bound.base ≤ outer.length) (harity : bound.arity ≤ v.stack.length)
    (hlt : outer.length + v.stack.length < 2 ^ 31) {target : Nat} (htarget : target ≤ depth - n)
    (h : Rests ns (l.over outer) v σ) :
    Computes code ns (branchCommands (UInt32.ofNat (outer.length + v.stack.length)) (depth - n)
        (labelOf bound)) σ fun τ =>
      τ.regs .a = σ.regs .a ∧ Arrives ns l outer depth st.bounds target o v τ :=
  (h.computes_branch hbase harity hlt).mono fun _ hτ =>
    ⟨hτ.2.2, .branch hlabel hb htarget hτ.2.1 hτ.1⟩

/-! ## Instructions without branches -/

theorem simulates_effect (hcode : Installed code ns m spaces) (he : Effect i v v') :
    Simulates code ns m spaces (.instr i) v .next v' := by
  intro depth labels height results rest st outer step pool pool' hready hstep hr l σ hσ
  obtain ⟨cs, height', hlower, rfl, rfl⟩ := (lowerInstr_straight he.isStraight).1 hstep
  exact (computes_effect hcode he (lowerStraight_eq_ok.1 hlower) hσ
    hready.locals hready.globals).mono fun τ hτ => ⟨.next hτ, trivial⟩

/-- The sequence of a call takes as many arguments as the function has parameters. -/
theorem params_of_funcAt (hcode : Installed code ns m spaces) (hm : m.Valid)
    (himports : m.imports = []) (hfits : m.Fits) {index : UInt32} {f : Func} {type : FuncType}
    {entry : FuncEntry} (hf : m.funcs[index.toNat]? = some f) (htype : m.typeOf? f = some type)
    (hentry : spaces.funcAt index = .ok entry) :
    (arityOf entry.type).params.toNat = type.params.length := by
  have hfuncs := congrArg (·[index.toNat]?) (hcode.agrees 0).funcs
  simp only [List.getElem?_map, Array.getElem?_toList, entryAt_eq_ok.1 hentry,
    (hm.funcs_context himports).2 ⟨f, hf, htype⟩] at hfuncs
  rw [Option.some.inj hfuncs]
  have hle := hfits.params type (List.mem_of_getElem? htype)
  exact toNat_ofNat (by omega)

theorem simulates_call (hcode : Installed code ns m spaces) (hm : m.Valid)
    (himports : m.imports = []) (hfits : m.Fits) {index : UInt32} {f : Func} {type : FuncType}
    (hf : m.funcs[index.toNat]? = some f) (htype : m.typeOf? f = some type)
    (hargs : args.length = type.params.length)
    (ih : Simulates code ns m spaces (.func index) ⟨args, [], gs⟩ .next ⟨rs, [], gs'⟩) :
    Simulates code ns m spaces (.instr (.call index)) ⟨xs ++ args, ls, gs⟩ .next
      ⟨xs ++ rs, ls, gs'⟩ := by
  intro depth labels height results rest st outer step pool pool' hready hstep hr l σ hσ
  obtain ⟨cs, height', hlower, rfl, rfl⟩ := (lowerInstr_straight rfl).1 hstep
  cases lowerStraight_eq_ok.1 hlower with
  | call hentry hbase =>
    obtain ⟨ds, hfound, hbody⟩ := ih
    have hparams := params_of_funcAt hcode hm himports hfits hf htype hentry
    have hle := hfits.params type (List.mem_of_getElem? htype)
    have hin := hσ.layout
    rw [Layout.with_eq_holding gs] at hin
    refine (computes_callSequence hfound (hargs.trans hparams.symm) (by omega) hin hσ.idle
      fun τ hτ => hbody hτ).mono fun τ hτ => ⟨.next ⟨?_, hτ.2⟩, trivial⟩
    rw [Layout.with_eq_holding gs]
    exact hτ.1

/-! ## Branches -/

section
variable (hm : m.Valid) (himports : m.imports = [])
include hm himports

theorem simulates_br :
    Simulates code ns m spaces (.instr (.br label)) v (.branch label.toNat) v := by
  intro depth labels height results rest st outer step pool pool' hready hstep hr l σ hσ
  obtain ⟨target, lb, hat, -, rfl⟩ := lowerBr_eq_ok.1 (lowerInstr_br.1 hstep).1
  obtain ⟨bound, hb, hbase, harity⟩ := hready.exists_bound hm himports .br rfl
  cases hat.symm.trans (hready.fits.labelAt_eq hb)
  obtain ⟨rfl, hlt⟩ := hready.height_eq
  exact (computes_jump rfl hb hbase harity hlt (Nat.le_refl _) hσ).mono fun τ hτ =>
    ⟨hτ.2, nofun⟩

theorem simulates_ret : Simulates code ns m spaces (.instr .ret) v .ret v := by
  intro depth labels height results rest st outer step pool pool' hready hstep hr l σ hσ
  obtain ⟨target, lb, hat, -, rfl⟩ := lowerBr_eq_ok.1 (lowerInstr_ret.1 hstep).1
  have hdepth : (UInt32.ofNat depth).toNat = depth :=
    toNat_ofNat (Nat.lt_of_le_of_lt hready.fits.nesting (by decide))
  obtain ⟨bound, hb, hbase, harity⟩ := hready.exists_bound hm himports .ret rfl
  rw [← hdepth] at hb
  cases hat.symm.trans (hready.fits.labelAt_eq hb)
  rw [hdepth] at hb
  obtain ⟨rfl, hlt⟩ := hready.height_eq
  rw [hdepth]
  exact (computes_jump rfl hb hbase harity hlt (Nat.le_refl _) hσ).mono fun τ hτ =>
    ⟨hτ.2, nofun⟩

theorem simulates_brIf {choice : Int32} : Simulates code ns m spaces (.instr (.brIf label))
    ⟨xs ++ [choice], ls, gs⟩ (if choice = 0 then .next else .branch label.toNat) ⟨xs, ls, gs⟩ := by
  intro depth labels height results rest st outer step pool pool' hready hstep hr l σ hσ
  rw [lowerInstr_brIf] at hstep
  obtain ⟨target, jump, -, hjump, rfl⟩ := lowerBrIf_eq_ok.1 hstep
  obtain ⟨lb, one, hat, -, hone, rfl⟩ := branchIf_eq_ok.1 hjump
  refine .popA hσ fun τ hτ ha => ?_
  refine computes_guardedLast hone hr (allows_unlessIn_exact ha) (fun hb => ?_)
    fun hb => .nil ?_
  · have hne : choice ≠ 0 := by simpa using hb
    have he : Evaluates m (.instr (.brIf label)) ⟨xs ++ [choice], ls, gs⟩ (.branch label.toNat)
        ⟨xs, ls, gs⟩ := by
      simpa only [if_neg hne] using @Evaluates.brIf m label xs ls gs choice
    obtain ⟨bound, hb, hbase, harity⟩ := hready.exists_bound hm himports he rfl
    cases hat.symm.trans (hready.fits.labelAt_eq hb)
    obtain ⟨hheight, hlt⟩ := hready.height_below
    rw [hheight, if_neg hne]
    refine (computes_jump rfl hb hbase harity (v := ⟨xs, ls, gs⟩) hlt (Nat.le_refl _)
      hτ).mono fun υ hυ => ⟨hυ.2, ?_⟩
    show υ.allows (.ifIn .a (.exact 0)) = _
    rw [allows_ifIn_exact (hυ.1.trans ha), decide_eq_false hne]
    rfl
  · have hz : choice = 0 := by simpa using hb
    rw [if_pos hz]
    refine ⟨.next hτ, ?_⟩
    show τ.allows (.ifIn .a (.exact 0)) = _
    rw [allows_ifIn_exact ha, decide_eq_true hz]
    rfl

theorem simulates_brTable {table : List UInt32} {default : UInt32} {choice : Int32} :
    Simulates code ns m spaces (.instr (.brTable table default)) ⟨xs ++ [choice], ls, gs⟩
      (.branch (selectLabel table default choice).toNat) ⟨xs, ls, gs⟩ := by
  intro depth labels height results rest st outer step pool pool' hready hstep hr l σ hσ
  rw [lowerInstr_brTable] at hstep
  obtain ⟨cases', least, jump, target, pool₁, -, hcases, hdefault, rfl⟩ :=
    lowerBrTable_eq_ok.1 hstep
  have hsize : table.length ≤ 2 ^ 31 := of_decide_eq_true
    (Instr.self_of_liveAll (Instr.allLive_cons.1 hready.fits.tables).1)
  obtain ⟨bound, hb, hbase, harity⟩ := hready.exists_bound hm himports
    (@Evaluates.brTable m table default xs ls gs choice) rfl
  obtain ⟨hheight, hlt⟩ := hready.height_below
  rw [hheight] at hcases hdefault
  rw [List.append_assoc]
  refine .popA hσ fun τ hτ ha => ?_
  obtain ⟨t, lb, hat, hle, hcomputes⟩ := computes_branchTable hcases hdefault hr hsize ha
  cases hat.symm.trans (hready.fits.labelAt_eq hb)
  refine hcomputes ((computes_jump rfl hb hbase harity (v := ⟨xs, ls, gs⟩) hlt hle
    hτ).mono fun υ hυ => ⟨hυ.1.trans ha, hυ.2, nofun⟩)

end

/-! ## Constructs -/

section
variable (hcode : Installed code ns m spaces)
  (hcounts : (m.context 0).blockCounts? type = some counts) (hargs : args.length = counts.params)
include hcode hcounts hargs

theorem simulates_block
    (ih : Simulates code ns m spaces (.list body) ⟨args, ls, gs⟩ o ⟨ys, ls', gs'⟩) :
    Simulates code ns m spaces (.instr (.block type body)) ⟨xs ++ args, ls, gs⟩ o.behind
      ⟨o.leaves counts.results xs ys, ls', gs'⟩ := by
  intro depth labels height results rest st outer step pool pool' hready hstep hr l σ hσ
  obtain ⟨b, next, labels', hlower, rfl, hinner⟩ :=
    hready.block (hcode.agrees _) hcounts hargs hstep
  have hbody := ih hinner hlower hr (rests_over_append.2 hσ)
  rw [hinner.bounds_enter] at hbody
  exact computes_closed hready.base_le hinner.fits.nesting hbody

theorem simulates_loop
    (ih : Simulates code ns m spaces (.turns counts.params body) ⟨args, ls, gs⟩ o ⟨ys, ls', gs'⟩) :
    Simulates code ns m spaces (.instr (.loop type body)) ⟨xs ++ args, ls, gs⟩ o
      ⟨if o = .next then xs ++ ys else ys, ls', gs'⟩ := by
  intro depth labels height results rest st outer step pool pool' hready hstep hr l σ hσ
  obtain ⟨b, next, labels', pool₁, hlower, hloop, hinner⟩ :=
    hready.loop (hcode.agrees _) hcounts hargs hstep
  have hinside := rests_over_append.2 hσ
  have hturns := ih hinner hargs hinner.bounds_enter hlower (hr.left (.of_lowerLoop hloop)) hloop
    (hr.right (extends_lowerList _ _ _ _ _ hlower)) hinside.layout fun _ => hinside.idle
  have hflow : step.flow = escape depth b.target next := by
    obtain ⟨-, rfl, -⟩ | ⟨-, rfl, -⟩ := lowerLoop_eq_ok.1 hloop <;> rfl
  rw [hflow]
  exact hturns.mono fun τ hτ => (hτ.narrow hready.base_le).escape hready.fits.nesting

theorem simulates_ifElse {consequent alternative : List Instr} {choice : Int32}
    (ih : Simulates code ns m spaces (.list (if choice = 0 then alternative else consequent))
      ⟨args, ls, gs⟩ o ⟨ys, ls', gs'⟩) :
    Simulates code ns m spaces (.instr (.ifElse type consequent alternative))
      ⟨xs ++ args ++ [choice], ls, gs⟩ o.behind ⟨o.leaves counts.results xs ys, ls', gs'⟩ := by
  intro depth labels height results rest st outer step pool pool' hready hstep hr l σ hσ
  obtain ⟨first, second, next, labels', height', pool₁, pool₂, one, other, pool₃, hfirst, hsecond,
    hone, hother, rfl, hinner⟩ := hready.ifElse (hcode.agrees _) hcounts hargs hstep
  have hinner₁ := hinner consequent (.head _)
  have hinner₂ := hinner alternative (.tail _ (.head _))
  have hext₁ := extends_lowerList _ _ _ _ _ hfirst
  have hext₂ := extends_lowerList _ _ _ _ _ hsecond
  have hext₃ := (Extends.of_isOne hone).trans (.of_isOne hother)
  refine computes_closed hready.base_le hinner₁.fits.nesting ?_
  refine computes_choose hone hother (hr.right (hext₁.trans hext₂)) (fun ws τ hτ => ?_) hσ
  rw [← hinner₁.bounds_enter]
  by_cases hz : choice = 0
  · rw [if_pos hz] at ih ⊢
    exact (ih hinner₂ hsecond (hr.stretch hext₁.size_le hext₃) (rests_over_append.2 hτ)).mono
      fun υ hυ => hυ.mono (Nat.min_le_right _ _)
  · rw [if_neg hz] at ih ⊢
    exact (ih hinner₁ hfirst (hr.left (hext₂.trans hext₃)) (rests_over_append.2 hτ)).mono
      fun υ hυ => hυ.mono (Nat.min_le_left _ _)

end

/-! ## Lists -/

theorem simulates_nil : Simulates code ns m spaces (.list []) v .next v := by
  intro depth labels height results st outer b pool pool' hready hlower hr l σ hσ
  obtain ⟨rfl, -⟩ := lowerList_nil.1 hlower
  exact .nil (.next hσ)

/-- Behind an instruction that has come to its end, the others follow. -/
theorem simulates_cons (hcode : Installed code ns m spaces) (hm : m.Valid)
    (himports : m.imports = []) (he : Evaluates m (.instr i) v .next v₁)
    (hrest : Evaluates m (.list rest) v₁ o v')
    (ih : Simulates code ns m spaces (.instr i) v .next v₁)
    (ih' : Simulates code ns m spaces (.list rest) v₁ o v') :
    Simulates code ns m spaces (.list (i :: rest)) v o v' := by
  intro depth labels height results st outer b pool pool' hready hlower hr l σ hσ
  obtain ⟨step, pool₁, hstep, hcont⟩ := lowerList_cons.1 hlower
  have hfirst := ih hready hstep
    (hr.left (.of_continues hcont (extends_lowerList _ _ _ _ _))) hσ
  have hr₁ := hr.right (extends_lowerInstr _ _ _ _ _ hstep)
  have hready' := hready.behind hm himports he
  have hheight := fun {next} (hnext : step.flow.height? = some next) =>
    hready.eq_height_behind hm himports (hcode.agrees _) he hstep hnext
  cases hcont with
  | next hflow hlower' =>
    obtain rfl := hheight (by rw [hflow]; rfl)
    rw [← he.lengths.1] at hlower'
    exact hfirst.seq fun τ hτ => ih' hready' hlower' hr₁ hτ.1.rests
  | last hflow hnil =>
    subst hnil
    cases hrest
    refine hfirst.mono fun τ hτ => ?_
    rw [hflow] at hτ
    exact hτ.1
  -- The rest is a fragment that runs only if nothing is pending, which is so when falling through.
  | guarded hflow hne hlower' =>
    obtain rfl := hheight (by rw [hflow]; rfl)
    rw [← he.lengths.1] at hlower'
    obtain ⟨hid, hr₂⟩ := hr₁.filled (extends_lowerList _ _ _ _ _ hlower')
    refine hfirst.seq fun τ hτ => ?_
    have hadmits := hτ.2
    rw [hflow] at hadmits
    refine .guarded hadmits (fun _ => .callLastFound hid ?_) fun hb => absurd hb (by simp)
    exact (ih' hready' hlower' hr₂ hτ.1.rests).mono fun υ hυ => hυ.mono (Nat.min_le_right _ _)
  -- What always leaves does not fall through.
  | stop hflow =>
    refine hfirst.mono fun τ hτ => ?_
    have hadmits := hτ.2
    rw [hflow] at hadmits
    exact absurd rfl hadmits

/-- Behind an instruction that has set off a branch, nothing follows. -/
theorem simulates_stop (ho : o ≠ .next) (ih : Simulates code ns m spaces (.instr i) v o v') :
    Simulates code ns m spaces (.list (i :: rest)) v o v' := by
  intro depth labels height results st outer b pool pool' hready hlower hr l σ hσ
  obtain ⟨step, pool₁, hstep, hcont⟩ := lowerList_cons.1 hlower
  have hfirst := ih hready hstep
    (hr.left (.of_continues hcont (extends_lowerList _ _ _ _ _))) hσ
  cases hcont with
  | next hflow hlower' =>
    refine hfirst.seq fun τ hτ => absurd ?_ ho
    have harrives := hτ.1
    rw [hflow] at harrives
    exact harrives.eq_next hready.fits.nesting
  | last hflow | stop hflow =>
    refine hfirst.mono fun τ hτ => ?_
    rw [hflow] at hτ
    exact hτ.1
  | guarded hflow hne hlower' =>
    refine hfirst.seq fun τ hτ => ?_
    rw [hflow] at hτ
    refine .guarded hτ.2 (fun hb => absurd (of_decide_eq_true hb) ho) fun _ => .nil ?_
    exact hτ.1.mono (Nat.min_le_left _ _)

/-! ## Loops -/

/-- A turn of a loop that branches back begins with no branch under way. -/
theorem computes_turn {id : Nat} {Q : State → Prop}
    (hid : IsFragment code ns (UInt32.ofNat id) (loopCommands id depth b))
    (hin : ((l.over outer).with v).In ns σ)
    (h : ∀ τ, Rests ns (l.over outer) v τ → Computes code ns b.commands τ fun υ =>
      Computes code ns [(callFragment id).ifIn .brDepth (.exact (Int32.ofNat (depth + 1)))] υ Q) :
    Computes code ns [callFragment id] σ Q := by
  refine .callLastFound hid (.set ?_)
  exact (h _ ⟨hin.setReg rfl, idle_setReg⟩).seq fun υ hυ => hυ

/-- The last turn of a loop. -/
theorem simulates_last {arity : Nat} (ho : o ≠ .branch 0)
    (ih : Simulates code ns m spaces (.list body) v o v') :
    Simulates code ns m spaces (.turns arity body) v o.behind v' := by
  intro depth labels height results st outer bounds b next step pool pool₁ pool' hready hlen
    hbounds hlower hr hloop hr' l σ hin hidle
  have hbody := fun {τ} hτ => ih hready hlower hr (l := l) (σ := τ) hτ
  rw [hbounds] at hbody
  obtain ⟨-, rfl, rfl⟩ | ⟨hlt, rfl, rfl⟩ := lowerLoop_eq_ok.1 hloop
  · refine computes_turn hr'.last hin fun τ hτ => (hbody hτ).mono fun υ hυ => ?_
    obtain ⟨d, hd, hiff⟩ := hυ.at_depth hready.fits.nesting
    exact .ifIn contains_exact hd (fun heq => absurd (hiff.1 heq) ho) fun _ => .nil (hυ.pass ho)
  · exact (hbody ⟨hin, hidle hlt⟩).mono fun υ hυ => hυ.pass ho

/-- A turn of a loop that goes on with another one. -/
theorem simulates_again {arity : Nat} (hm : m.Valid) (himports : m.imports = [])
    (he : Evaluates m (.list body) v (.branch 0) ⟨ys, ls, gs⟩)
    (ih : Simulates code ns m spaces (.list body) v (.branch 0) ⟨ys, ls, gs⟩)
    (ih' : Simulates code ns m spaces (.turns arity body) ⟨ys.rtake arity, ls, gs⟩ o v') :
    Simulates code ns m spaces (.turns arity body) v o v' := by
  intro depth labels height results st outer bounds b next step pool pool₁ pool' hready hlen
    hbounds hlower hr hloop hr' l σ hin hidle
  have hbody := fun {τ} hτ => ih hready hlower hr (l := l) (σ := τ) hτ
  rw [hbounds] at hbody
  obtain ⟨hready', hlen'⟩ := hready.turn hm himports he hlen hbounds
  obtain ⟨hle, rfl, rfl⟩ | ⟨hlt, rfl, rfl⟩ := lowerLoop_eq_ok.1 hloop
  · refine computes_turn hr'.last hin fun τ hτ => (hbody hτ).mono fun υ hυ => ?_
    obtain ⟨-, hdepth, hin'⟩ := hυ.arrived
    rw [← he.lengths.1] at hlower
    exact .ifIn contains_exact hdepth
      (fun _ => ih' hready' hlen' hbounds hlower hr hloop hr' hin' fun hlt => by omega)
      fun hne => absurd rfl hne
  · refine (hbody ⟨hin, hidle hlt⟩).mono fun υ hυ => ?_
    have := hυ.arrived.1
    omega

/-! ## Functions -/

/-- The locals that a function declares lie behind its arguments, and are zero. -/
theorem computes_declare {declared : List ValueType} {cs : List Command} {Q : State → Prop}
    (h : Rests ns l ⟨[], args, gs⟩ σ)
    (hrest : ∀ τ, Rests ns l ⟨[], args ++ List.replicate declared.length 0, gs⟩ τ →
      Computes code ns cs τ Q) :
    Computes code ns (declared.map (fun _ => .append .frame (.int 0)) ++ cs) σ Q := by
  induction declared generalizing args σ with
  | nil =>
    refine hrest σ ?_
    rwa [List.length_nil, List.replicate_zero, List.append_nil]
  | cons type declared ih =>
    have hset := h.layout.setLocals (args ++ [0])
    rw [List.map_append] at hset
    refine .plain (.plain (.append _ _) (performs_append (k := "frames") rfl h.layout.frames
      append_top)) (ih ⟨hset, h.idle⟩ fun τ hτ => hrest τ ?_)
    rwa [List.append_assoc, List.singleton_append, ← List.replicate_succ] at hτ

/-- What has arrived at the end of a function are its results. -/
theorem Arrives.results {target arity : Nat}
    (h : Arrives ns l [] 0 [⟨0, arity⟩] target o ⟨ys, ls, gs⟩ σ)
    (hrs : o.results? arity ys = some rs) : (l.with ⟨rs, ls, gs⟩).In ns σ := by
  rw [← Layout.over_nil (l := l)]
  cases h with
  | next h =>
    cases hrs
    exact h.layout
  | @branch _ _ _ n b hlabel hb htarget hdepth h =>
    obtain ⟨rfl, rfl⟩ : n = 0 ∧ b = ⟨0, arity⟩ := by
      match n, hb with
      | 0, rfl => exact ⟨rfl, rfl⟩
    have hresults : o.results? arity ys = some (ys.rtake arity) := by
      match o, hlabel with
      | .branch _, rfl | .ret, _ => rfl
    cases hresults.symm.trans hrs
    exact h

theorem simulates_func {index : UInt32} {f : Func} {type : FuncType}
    (hcode : Installed code ns m spaces) (hm : m.Valid) (hfits : m.Fits)
    (hf : m.funcs[index.toNat]? = some f) (htype : m.typeOf? f = some type)
    (hargs : args.length = type.params.length) (hgs : gs.length = m.globals.length)
    (hrs : o.results? type.results.length ys = some rs)
    (ih : Simulates code ns m spaces (.list f.body)
      ⟨[], args ++ List.replicate f.locals.length 0, gs⟩ o ⟨ys, ls', gs'⟩) :
    Simulates code ns m spaces (.func index) ⟨args, [], gs⟩ .next ⟨rs, [], gs'⟩ := by
  obtain ⟨cs, pool, pool', hlower, hr, hfound⟩ := hcode.func index f type hf htype
  refine ⟨cs, hfound, fun {l σ} hσ => ?_⟩
  obtain ⟨b, hlist, rfl⟩ := lowerFunction_eq_ok.1 hlower
  have hlen : (args ++ List.replicate f.locals.length 0).length =
      type.params.length + f.locals.length := by
    rw [List.length_append, List.length_replicate, hargs]
  have hready := Placed.start hm hfits (Module.mem_bodies hf htype) hlen hgs
  rw [← hlen] at hlist
  refine computes_declare hσ fun τ hτ => ?_
  rw [← Layout.over_nil (l := l)] at hτ
  exact (ih hready hlist hr hτ).mono fun υ hυ => ⟨_, hυ.results hrs⟩

/-! ## Evaluation -/

/-- **Compiled code evaluates.**  Whatever evaluation comes to, compiled code computes. -/
theorem simulates {task : Task} (hcode : Installed code ns m spaces) (hm : m.Valid)
    (himports : m.imports = []) (hfits : m.Fits) (h : Evaluates m task v o v')
    (hgs : v.globals.length = m.globals.length) : Simulates code ns m spaces task v o v' := by
  induction h with
  | effect he => exact simulates_effect hcode he
  | call hf htype hargs _ ih => exact simulates_call hcode hm himports hfits hf htype hargs (ih hgs)
  | br => exact simulates_br hm himports
  | brIf => exact simulates_brIf hm himports
  | brTable => exact simulates_brTable hm himports
  | ret => exact simulates_ret hm himports
  | block hcounts hargs _ ih => exact simulates_block hcode hcounts hargs (ih hgs)
  | loop hcounts hargs _ ih => exact simulates_loop hcode hcounts hargs (ih hgs)
  | ifElse hcounts hargs _ ih => exact simulates_ifElse hcode hcounts hargs (ih hgs)
  | nil => exact simulates_nil
  | cons hi hrest ih ih' =>
    exact simulates_cons hcode hm himports hi hrest (ih hgs) (ih' (hi.lengths.2.trans hgs))
  | stop _ ho ih => exact simulates_stop ho (ih hgs)
  | last _ ho ih => exact simulates_last ho (ih hgs)
  | again hbody _ ih ih' =>
    exact simulates_again hm himports hbody (ih hgs) (ih' (hbody.lengths.2.trans hgs))
  | func hf htype hargs _ hrs ih =>
    exact simulates_func hcode hm hfits hf htype hargs hgs hrs (ih hgs)

end Machine

end WasmPack
