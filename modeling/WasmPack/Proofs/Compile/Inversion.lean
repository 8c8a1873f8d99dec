/-
  WasmPack.Proofs.Compile.Inversion

  What a success of code generation has gone through, instruction by
  instruction: one equivalence for each form of instruction and for each way a
  list goes on.  Pools only grow, and a fragment keeps its commands once the
  instruction it belongs to is done.
-/
import WasmPack.Compile.Body
import WasmPack.Proofs.Compile.Program

namespace WasmPack

/-- The instruction neither branches nor encloses others. -/
def Wasm.Instr.isStraight : Instr → Bool
  | .unreachable | .block .. | .loop .. | .ifElse .. | .br .. | .brIf .. | .brTable .. | .ret => false
  | _ => true

namespace Compile

open Wasm

variable {scope : Scope} {depth : Nat} {labels : List Label} {height label : UInt32}
  {pool pool' pool₁ pool₂ : Pool} {step : Step} {b : Block} {type : BlockType}
  {body consequent alternative rest : List Instr} {mnemonic : String} {cs : List Command}
  {one : Option Command} {i : Instr}

/-- Generation that begins with a step that may refuse the module. -/
theorem gen_lift_bind_eq_ok {α β : Type} {x : Except CompileError α} {f : α → Gen β} {r : β × Pool} :
    ((x : Gen α) >>= f) pool = .ok r ↔ ∃ a, x = .ok a ∧ f a pool = .ok r := by
  cases x with
  | error e => exact ⟨(fun h => nomatch h), fun ⟨_, h, _⟩ => nomatch h⟩
  | ok a =>
    constructor
    · intro h
      exact ⟨a, rfl, h⟩
    · rintro ⟨_, ⟨⟩, h⟩
      exact h

/-! ## Fragments -/

theorem reserve_eq_ok {id : Nat} :
    reserve pool = .ok (id, pool') ↔ id = pool.size ∧ pool' = pool.push [] := by
  constructor
  · intro h
    cases h
    exact ⟨rfl, rfl⟩
  · rintro ⟨rfl, rfl⟩
    rfl

theorem fill_eq_ok {id : Nat} {u : Unit} :
    fill id cs pool = .ok (u, pool') ↔ pool' = pool.setIfInBounds id cs := by
  constructor
  · intro h
    cases h
    rfl
  · rintro rfl
    rfl

/-- A fragment that is filled at once. -/
theorem push_filled (pool : Pool) (cs : List Command) :
    (pool.push []).setIfInBounds pool.size cs = pool.push cs := by
  apply Array.ext_getElem?
  intro i
  rw [Array.getElem?_setIfInBounds, Array.getElem?_push, Array.getElem?_push, Array.size_push]
  by_cases hi : pool.size = i
  · subst hi
    simp
  · rw [if_neg hi, if_neg fun h => hi h.symm, if_neg fun h => hi h.symm]

/-- Commands that have become at most one. -/
inductive IsOne (pool : Pool) : List Command → Option Command → Pool → Prop where
  | none : IsOne pool [] none pool
  | one (c : Command) : IsOne pool [c] (some c) pool
  | fragment {cs : List Command} (h : 2 ≤ cs.length) :
      IsOne pool cs (some (callFragment pool.size)) (pool.push cs)

theorem asOne_eq_ok : asOne cs pool = .ok (one, pool') ↔ IsOne pool cs one pool' := by
  match cs with
  | [] =>
    constructor
    · intro h
      obtain ⟨rfl, rfl⟩ := gen_pure_eq_ok.1 h
      exact .none
    · intro h
      cases h with
      | none => rfl
      | fragment h => exact absurd h (by decide)
  | [c] =>
    constructor
    · intro h
      obtain ⟨rfl, rfl⟩ := gen_pure_eq_ok.1 h
      exact .one c
    · intro h
      cases h with
      | one => rfl
      | fragment h => exact absurd h (by simp)
  | c :: d :: cs =>
    constructor
    · intro h
      obtain ⟨id, pool₁, hid, h⟩ := gen_bind_eq_ok.1 h
      obtain ⟨rfl, rfl⟩ := reserve_eq_ok.1 hid
      obtain ⟨u, pool₂, hfill, h⟩ := gen_bind_eq_ok.1 h
      obtain rfl := fill_eq_ok.1 hfill
      obtain ⟨rfl, rfl⟩ := gen_pure_eq_ok.1 h
      rw [push_filled]
      exact .fragment (by simp)
    · intro h
      cases h
      rw [← push_filled]
      rfl

/-! ## Branches -/

theorem labelAt_eq_ok {target : Nat} {l : Label} :
    labelAt labels depth label = .ok (target, l) ↔
      label.toNat ≤ depth ∧ target = depth - label.toNat ∧ labels[target]? = some l := by
  unfold labelAt
  split
  · rename_i hle
    constructor
    · intro h
      split at h
      · cases h
        exact ⟨hle, rfl, ‹_›⟩
      · cases h
    · rintro ⟨-, rfl, hl⟩
      rw [hl]
      rfl
  · rename_i hle
    exact ⟨(fun h => nomatch h), fun h => absurd h.1 hle⟩

theorem below_eq_ok {count rest : UInt32} :
    below mnemonic height count = .ok rest ↔ count ≤ height ∧ rest = height - count := by
  unfold below
  split
  · rename_i hle
    constructor
    · intro h
      cases h
      exact ⟨hle, rfl⟩
    · rintro ⟨-, rfl⟩
      rfl
  · rename_i hle
    exact ⟨(fun h => nomatch h), fun h => absurd h.1 hle⟩

theorem toNat_of_below {count base : UInt32}
    (hbelow : below mnemonic height count = .ok base) :
    height.toNat = base.toNat + count.toNat := by
  obtain ⟨hle, rfl⟩ := below_eq_ok.1 hbelow
  have hle := UInt32.le_iff_toNat_le.1 hle
  rw [UInt32.toNat_sub_of_le _ _ (UInt32.le_iff_toNat_le.2 hle)]
  omega

theorem below_eq_error {count : UInt32} {e : CompileError} :
    below mnemonic height count = .error e ↔
      height.toNat < count.toNat ∧ e = .stackUnderflow mnemonic := by
  unfold below
  split
  · rename_i hle
    have hle := UInt32.le_iff_toNat_le.1 hle
    exact ⟨(fun h => nomatch h), fun h => absurd h.1 (Nat.not_lt_of_le hle)⟩
  · rename_i hlt
    have hlt := Nat.lt_of_not_le fun hle => hlt (UInt32.le_iff_toNat_le.2 hle)
    constructor
    · intro h
      cases h
      exact ⟨hlt, rfl⟩
    · rintro ⟨-, rfl⟩
      rfl

theorem above_eq_ok {count next : UInt32} :
    above height count = .ok next ↔
      height.toNat + count.toNat < UInt32.size ∧ next = height + count := by
  unfold above
  split
  · rename_i hfits
    constructor
    · intro h
      cases h
      exact ⟨hfits, rfl⟩
    · rintro ⟨-, rfl⟩
      rfl
  · rename_i hfits
    exact ⟨(fun h => nomatch h), fun h => absurd h.1 hfits⟩

theorem above_eq_error {count : UInt32} {e : CompileError} :
    above height count = .error e ↔
      UInt32.size ≤ height.toNat + count.toNat ∧ e = .overflow := by
  unfold above
  split
  · rename_i hfits
    exact ⟨(fun h => nomatch h), fun h => absurd hfits (Nat.not_lt_of_le h.1)⟩
  · rename_i hfits
    constructor
    · intro h
      cases h
      exact ⟨Nat.le_of_not_lt hfits, rfl⟩
    · rintro ⟨-, rfl⟩
      rfl

theorem toNat_of_above {count next : UInt32} (h : above height count = .ok next) :
    next.toNat = height.toNat + count.toNat := by
  obtain ⟨hfits, rfl⟩ := above_eq_ok.1 h
  rw [UInt32.toNat_add]
  exact Nat.mod_eq_of_lt hfits

/-- The number of operands where a branch has arrived at the label. -/
def Label.full (l : Label) : Nat := l.height.toNat + l.arity.toNat

/-- The commands of a branch: some values are dropped, and the branch is set off. -/
def branchCommands (height : UInt32) (target : Nat) (l : Label) : List Command :=
  List.replicate (height - (l.height + l.arity)).toNat (.remove (.operand (-l.arity.toInt32 - 1))) ++
    [.setScore .brDepth (Int32.ofNat target)]

/-- A branch is set off where its label and what it brings are not higher than the stack.  Their
    sum fits in 32 bits then, as the height does. -/
theorem branch_eq_ok {target : Nat} {l : Label} :
    branch mnemonic height target l = .ok cs ↔
      l.full ≤ height.toNat ∧ cs = branchCommands height target l := by
  unfold branch
  constructor
  · intro h
    obtain ⟨keep, hkeep, h⟩ := except_bind_eq_ok.1 h
    obtain ⟨excess, hexcess, h⟩ := except_bind_eq_ok.1 h
    obtain ⟨hle, rfl⟩ := below_eq_ok.1 hexcess
    have hfull : l.full ≤ height.toNat := by
      rw [Label.full, ← toNat_of_above hkeep]
      exact UInt32.le_iff_toNat_le.1 hle
    obtain ⟨-, rfl⟩ := above_eq_ok.1 hkeep
    cases h
    exact ⟨hfull, rfl⟩
  · rintro ⟨hle, rfl⟩
    have hkeep := above_eq_ok.2 ⟨Nat.lt_of_le_of_lt hle height.toNat_lt, rfl⟩
    have hle : l.height + l.arity ≤ height := by
      rw [UInt32.le_iff_toNat_le, toNat_of_above hkeep]
      exact hle
    exact except_bind_eq_ok.2 ⟨_, hkeep, except_bind_eq_ok.2 ⟨_, below_eq_ok.2 ⟨hle, rfl⟩, rfl⟩⟩

theorem lowerBr_eq_ok :
    lowerBr mnemonic depth labels height label = .ok step ↔
      ∃ target l, labelAt labels depth label = .ok (target, l) ∧ l.full ≤ height.toNat ∧
        step = ⟨branchCommands height target l, .stop target⟩ := by
  unfold lowerBr
  constructor
  · intro h
    obtain ⟨⟨target, l⟩, hl, h⟩ := except_bind_eq_ok.1 h
    obtain ⟨cs, hcs, h⟩ := except_bind_eq_ok.1 h
    obtain ⟨hle, rfl⟩ := branch_eq_ok.1 hcs
    cases h
    exact ⟨target, l, hl, hle, rfl⟩
  · rintro ⟨target, l, hl, hle, rfl⟩
    exact except_bind_eq_ok.2 ⟨_, hl, except_bind_eq_ok.2 ⟨_, branch_eq_ok.2 ⟨hle, rfl⟩, rfl⟩⟩

theorem branchIf_eq_ok {condition : List Modifier} {target : Nat} :
    branchIf mnemonic depth labels height label condition pool = .ok ((cs, target), pool') ↔
      ∃ l one, labelAt labels depth label = .ok (target, l) ∧ l.full ≤ height.toNat ∧
        IsOne pool (branchCommands height target l) one pool' ∧
        cs = one.toList.map (condition.foldr fun m c => c.guarded m) := by
  unfold branchIf
  constructor
  · intro h
    obtain ⟨⟨target', l⟩, hl, h⟩ := gen_lift_bind_eq_ok.1 h
    obtain ⟨ds, hds, h⟩ := gen_lift_bind_eq_ok.1 h
    obtain ⟨hle, rfl⟩ := branch_eq_ok.1 hds
    obtain ⟨one, pool₃, hone, h⟩ := gen_bind_eq_ok.1 h
    obtain ⟨heq, rfl⟩ := gen_pure_eq_ok.1 h
    cases heq
    exact ⟨l, one, hl, hle, asOne_eq_ok.1 hone, rfl⟩
  · rintro ⟨l, one, hl, hle, hone, rfl⟩
    refine gen_lift_bind_eq_ok.2 ⟨(target, l), hl, ?_⟩
    refine gen_lift_bind_eq_ok.2 ⟨_, branch_eq_ok.2 ⟨hle, rfl⟩, ?_⟩
    exact gen_bind_eq_ok.2 ⟨one, pool', asOne_eq_ok.2 hone, rfl⟩

theorem gen_discard_bind_eq_ok {α β : Type} {x : Except CompileError α} {f : Unit → Gen β}
    {r : β × Pool} :
    (discard (x : Gen α) >>= f) pool = .ok r ↔ (∃ a, x = .ok a) ∧ f () pool = .ok r := by
  cases x with
  | error e => exact ⟨(fun h => nomatch h), fun ⟨⟨_, h⟩, _⟩ => nomatch h⟩
  | ok a => exact ⟨fun h => ⟨⟨a, rfl⟩, h⟩, fun h => h.2⟩

theorem lowerBrIf_eq_ok :
    lowerBrIf mnemonic depth labels height label pool = .ok (step, pool') ↔
      ∃ target jump, 1 ≤ height ∧
        branchIf mnemonic depth labels (height - 1) label [.unlessIn .a (.exact 0)] pool =
          .ok ((jump, target), pool') ∧
        step = ⟨popA ++ jump, .guarded (height - 1) target (.ifIn .a (.exact 0))⟩ := by
  unfold lowerBrIf
  constructor
  · intro h
    obtain ⟨-, h⟩ := gen_discard_bind_eq_ok.1 h
    obtain ⟨base, hbase, h⟩ := gen_lift_bind_eq_ok.1 h
    obtain ⟨hle, rfl⟩ := below_eq_ok.1 hbase
    obtain ⟨⟨jump, target⟩, pool₃, hjump, h⟩ := gen_bind_eq_ok.1 h
    obtain ⟨rfl, rfl⟩ := gen_pure_eq_ok.1 h
    exact ⟨target, jump, hle, hjump, rfl⟩
  · rintro ⟨target, jump, hle, hjump, rfl⟩
    obtain ⟨l, one, hl, -⟩ := branchIf_eq_ok.1 hjump
    refine gen_discard_bind_eq_ok.2 ⟨⟨_, hl⟩, ?_⟩
    refine gen_lift_bind_eq_ok.2 ⟨height - 1, below_eq_ok.2 ⟨hle, rfl⟩, ?_⟩
    exact gen_bind_eq_ok.2 ⟨_, _, hjump, rfl⟩

/-- The condition of the default of a table. -/
def outsideTable (table : List UInt32) : List Modifier :=
  if table.isEmpty then [] else [.unlessIn .a (.between 0 (Int32.ofNat (table.length - 1)))]

theorem lowerBrTable_eq_ok {table : List UInt32} {default : UInt32} :
    lowerBrTable mnemonic depth labels height table default pool = .ok (step, pool') ↔
      ∃ cases least jump target pool₁, 1 ≤ height ∧
        branchCases mnemonic depth labels (height - 1) 0 table pool =
          .ok ((cases, least), pool₁) ∧
        branchIf mnemonic depth labels (height - 1) default (outsideTable table) pool₁ =
          .ok ((jump, target), pool') ∧
        step = ⟨popA ++ cases ++ jump, .stop (min least target)⟩ := by
  unfold lowerBrTable
  constructor
  · intro h
    obtain ⟨base, hbase, h⟩ := gen_lift_bind_eq_ok.1 h
    obtain ⟨hle, rfl⟩ := below_eq_ok.1 hbase
    obtain ⟨⟨cases', least⟩, pool₂, hcases, h⟩ := gen_bind_eq_ok.1 h
    obtain ⟨⟨jump, target⟩, pool₃, hjump, h⟩ := gen_bind_eq_ok.1 h
    obtain ⟨rfl, rfl⟩ := gen_pure_eq_ok.1 h
    exact ⟨cases', least, jump, target, pool₂, hle, hcases, hjump, rfl⟩
  · rintro ⟨cases', least, jump, target, pool₁, hle, hcases, hjump, rfl⟩
    refine gen_lift_bind_eq_ok.2 ⟨height - 1, below_eq_ok.2 ⟨hle, rfl⟩, ?_⟩
    exact gen_bind_eq_ok.2 ⟨_, _, hcases, gen_bind_eq_ok.2 ⟨_, _, hjump, rfl⟩⟩

theorem branchCases_nil {n : Nat} {least : Nat} :
    branchCases mnemonic depth labels height n [] pool = .ok ((cs, least), pool') ↔
      cs = [] ∧ least = never ∧ pool' = pool := by
  constructor
  · intro h
    obtain ⟨heq, rfl⟩ := gen_pure_eq_ok.1 h
    cases heq
    exact ⟨rfl, rfl, rfl⟩
  · rintro ⟨rfl, rfl, rfl⟩
    rfl

theorem branchCases_cons {n : Nat} {least : Nat} {table : List UInt32} :
    branchCases mnemonic depth labels height n (label :: table) pool =
        .ok ((cs, least), pool') ↔
      ∃ jump target jumps least' pool₁,
        branchIf mnemonic depth labels height label [.ifIn .a (.exact (Int32.ofNat n))] pool =
          .ok ((jump, target), pool₁) ∧
        branchCases mnemonic depth labels height (n + 1) table pool₁ =
          .ok ((jumps, least'), pool') ∧
        cs = jump ++ jumps ∧ least = min target least' := by
  constructor
  · intro h
    obtain ⟨⟨jump, target⟩, pool₁, hjump, h⟩ := gen_bind_eq_ok.1 h
    obtain ⟨⟨jumps, least'⟩, pool₂, hjumps, h⟩ := gen_bind_eq_ok.1 h
    obtain ⟨heq, rfl⟩ := gen_pure_eq_ok.1 h
    cases heq
    exact ⟨jump, target, jumps, least', pool₁, hjump, hjumps, rfl, rfl⟩
  · rintro ⟨jump, target, jumps, least', pool₁, hjump, hjumps, rfl, rfl⟩
    exact gen_bind_eq_ok.2 ⟨_, _, hjump, gen_bind_eq_ok.2 ⟨_, _, hjumps, rfl⟩⟩

/-! ## Constructs -/

theorem checkNesting_eq_ok {u : Unit} : checkNesting depth = .ok u ↔ depth ≤ maxNesting := by
  unfold checkNesting
  split
  · exact ⟨fun _ => ‹_›, fun _ => rfl⟩
  · exact ⟨(fun h => nomatch h), fun h => absurd h ‹_›⟩

/-- The commands of the fragment of a loop that branches back. -/
def loopCommands (id depth : Nat) (code : Block) : List Command :=
  [.setScore .brDepth noBranch] ++ code.commands ++
    [(callFragment id).ifIn .brDepth (.exact (Int32.ofNat (depth + 1)))]

theorem lowerLoop_eq_ok :
    lowerLoop depth b height pool = .ok (step, pool') ↔
      (b.target ≤ depth + 1 ∧ step = ⟨[callFragment pool.size], escape depth b.target height⟩ ∧
        pool' = pool.push (loopCommands pool.size depth b)) ∨
      (depth + 1 < b.target ∧ step = ⟨b.commands, escape depth b.target height⟩ ∧
        pool' = pool) := by
  unfold lowerLoop
  split
  · rename_i hle
    constructor
    · intro h
      obtain ⟨id, pool₁, hid, h⟩ := gen_bind_eq_ok.1 h
      obtain ⟨rfl, rfl⟩ := reserve_eq_ok.1 hid
      obtain ⟨u, pool₂, hfill, h⟩ := gen_bind_eq_ok.1 h
      obtain rfl := fill_eq_ok.1 hfill
      obtain ⟨rfl, rfl⟩ := gen_pure_eq_ok.1 h
      exact .inl ⟨hle, rfl, push_filled pool _⟩
    · rintro (⟨-, rfl, rfl⟩ | ⟨hlt, -⟩)
      · rw [← push_filled]
        rfl
      · omega
  · rename_i hle
    constructor
    · intro h
      obtain ⟨rfl, rfl⟩ := gen_pure_eq_ok.1 h
      exact .inr ⟨by omega, rfl, rfl⟩
    · rintro (⟨hle', -⟩ | ⟨-, rfl, rfl⟩)
      · omega
      · rfl

/-! ## Instructions -/

theorem lowerInstr_block :
    lowerInstr scope depth labels height (.block type body) pool = .ok (step, pool') ↔
      ∃ arity b next, scope.spaces.blockArity type = .ok arity ∧ arity.params ≤ height ∧
        depth + 1 ≤ maxNesting ∧
        lowerList scope (depth + 1) (labels ++ [⟨height - arity.params, arity.results⟩]) height
          body pool = .ok (b, pool') ∧
        above (height - arity.params) arity.results = .ok next ∧ step = closed depth b next := by
  constructor
  · intro h
    obtain ⟨arity, harity, h⟩ := gen_lift_bind_eq_ok.1 h
    obtain ⟨base, hbase, h⟩ := gen_lift_bind_eq_ok.1 h
    obtain ⟨hle, rfl⟩ := below_eq_ok.1 hbase
    obtain ⟨u, hnest, h⟩ := gen_lift_bind_eq_ok.1 h
    obtain ⟨b, pool₄, hb, h⟩ := gen_bind_eq_ok.1 h
    obtain ⟨next, hnext, h⟩ := gen_lift_bind_eq_ok.1 h
    obtain ⟨rfl, rfl⟩ := gen_pure_eq_ok.1 h
    exact ⟨arity, b, next, harity, hle, checkNesting_eq_ok.1 hnest, hb, hnext, rfl⟩
  · rintro ⟨arity, b, next, harity, hle, hnest, hb, hnext, rfl⟩
    refine gen_lift_bind_eq_ok.2 ⟨arity, harity, ?_⟩
    refine gen_lift_bind_eq_ok.2 ⟨_, below_eq_ok.2 ⟨hle, rfl⟩, ?_⟩
    refine gen_lift_bind_eq_ok.2 ⟨(), checkNesting_eq_ok.2 hnest, ?_⟩
    exact gen_bind_eq_ok.2 ⟨b, pool', hb, gen_lift_bind_eq_ok.2 ⟨next, hnext, rfl⟩⟩

theorem lowerInstr_loop :
    lowerInstr scope depth labels height (.loop type body) pool = .ok (step, pool') ↔
      ∃ arity b next pool₁, scope.spaces.blockArity type = .ok arity ∧ arity.params ≤ height ∧
        depth + 1 ≤ maxNesting ∧
        lowerList scope (depth + 1) (labels ++ [⟨height - arity.params, arity.params⟩]) height
          body pool = .ok (b, pool₁) ∧
        above (height - arity.params) arity.results = .ok next ∧
        lowerLoop depth b next pool₁ = .ok (step, pool') := by
  constructor
  · intro h
    obtain ⟨arity, harity, h⟩ := gen_lift_bind_eq_ok.1 h
    obtain ⟨base, hbase, h⟩ := gen_lift_bind_eq_ok.1 h
    obtain ⟨hle, rfl⟩ := below_eq_ok.1 hbase
    obtain ⟨u, hnest, h⟩ := gen_lift_bind_eq_ok.1 h
    obtain ⟨b, pool₄, hb, h⟩ := gen_bind_eq_ok.1 h
    obtain ⟨next, hnext, h⟩ := gen_lift_bind_eq_ok.1 h
    exact ⟨arity, b, next, pool₄, harity, hle, checkNesting_eq_ok.1 hnest, hb, hnext, h⟩
  · rintro ⟨arity, b, next, pool₁, harity, hle, hnest, hb, hnext, h⟩
    refine gen_lift_bind_eq_ok.2 ⟨arity, harity, ?_⟩
    refine gen_lift_bind_eq_ok.2 ⟨_, below_eq_ok.2 ⟨hle, rfl⟩, ?_⟩
    refine gen_lift_bind_eq_ok.2 ⟨(), checkNesting_eq_ok.2 hnest, ?_⟩
    exact gen_bind_eq_ok.2 ⟨b, pool₁, hb, gen_lift_bind_eq_ok.2 ⟨next, hnext, h⟩⟩

theorem lowerInstr_ifElse :
    lowerInstr scope depth labels height (.ifElse type consequent alternative) pool =
        .ok (step, pool') ↔
      ∃ arity first second next pool₁ pool₂ one other pool₃,
        scope.spaces.blockArity type = .ok arity ∧ 1 ≤ height ∧ arity.params ≤ height - 1 ∧
        depth + 1 ≤ maxNesting ∧
        lowerList scope (depth + 1) (labels ++ [⟨height - 1 - arity.params, arity.results⟩])
          (height - 1) consequent pool = .ok (first, pool₁) ∧
        lowerList scope (depth + 1) (labels ++ [⟨height - 1 - arity.params, arity.results⟩])
          (height - 1) alternative pool₁ = .ok (second, pool₂) ∧
        IsOne pool₂ first.commands one pool₃ ∧ IsOne pool₃ second.commands other pool' ∧
        above (height - 1 - arity.params) arity.results = .ok next ∧
        step = closed depth ⟨choose one other, min first.target second.target⟩ next := by
  constructor
  · intro h
    obtain ⟨arity, harity, h⟩ := gen_lift_bind_eq_ok.1 h
    obtain ⟨top, htop, h⟩ := gen_lift_bind_eq_ok.1 h
    obtain ⟨hle, rfl⟩ := below_eq_ok.1 htop
    obtain ⟨base, hbase, h⟩ := gen_lift_bind_eq_ok.1 h
    obtain ⟨hle', rfl⟩ := below_eq_ok.1 hbase
    obtain ⟨u, hnest, h⟩ := gen_lift_bind_eq_ok.1 h
    obtain ⟨first, pool₅, hfirst, h⟩ := gen_bind_eq_ok.1 h
    obtain ⟨second, pool₆, hsecond, h⟩ := gen_bind_eq_ok.1 h
    obtain ⟨one, pool₇, hone, h⟩ := gen_bind_eq_ok.1 h
    obtain ⟨other, pool₈, hother, h⟩ := gen_bind_eq_ok.1 h
    obtain ⟨next, hnext, h⟩ := gen_lift_bind_eq_ok.1 h
    obtain ⟨rfl, rfl⟩ := gen_pure_eq_ok.1 h
    exact ⟨arity, first, second, next, pool₅, pool₆, one, other, pool₇, harity, hle, hle',
      checkNesting_eq_ok.1 hnest, hfirst, hsecond, asOne_eq_ok.1 hone, asOne_eq_ok.1 hother, hnext,
      rfl⟩
  · rintro ⟨arity, first, second, next, pool₁, pool₂, one, other, pool₃, harity, hle, hle', hnest,
      hfirst, hsecond, hone, hother, hnext, rfl⟩
    refine gen_lift_bind_eq_ok.2 ⟨arity, harity, ?_⟩
    refine gen_lift_bind_eq_ok.2 ⟨_, below_eq_ok.2 ⟨hle, rfl⟩, ?_⟩
    refine gen_lift_bind_eq_ok.2 ⟨_, below_eq_ok.2 ⟨hle', rfl⟩, ?_⟩
    refine gen_lift_bind_eq_ok.2 ⟨(), checkNesting_eq_ok.2 hnest, ?_⟩
    refine gen_bind_eq_ok.2 ⟨first, pool₁, hfirst, gen_bind_eq_ok.2 ⟨second, pool₂, hsecond, ?_⟩⟩
    refine gen_bind_eq_ok.2 ⟨one, pool₃, asOne_eq_ok.2 hone, ?_⟩
    refine gen_bind_eq_ok.2 ⟨other, pool', asOne_eq_ok.2 hother, ?_⟩
    exact gen_lift_bind_eq_ok.2 ⟨next, hnext, rfl⟩

theorem lowerInstr_unreachable :
    lowerInstr scope depth labels height .unreachable pool = .ok (step, pool') ↔
      step = ⟨[.setScore .brDepth 0], .stop 0⟩ ∧ pool' = pool :=
  gen_pure_eq_ok

theorem lowerInstr_br :
    lowerInstr scope depth labels height (.br label) pool = .ok (step, pool') ↔
      lowerBr "br" depth labels height label = .ok step ∧ pool' = pool :=
  gen_lift_eq_ok

theorem lowerInstr_ret :
    lowerInstr scope depth labels height .ret pool = .ok (step, pool') ↔
      lowerBr "return" depth labels height (UInt32.ofNat depth) = .ok step ∧ pool' = pool :=
  gen_lift_eq_ok

theorem lowerInstr_brIf :
    lowerInstr scope depth labels height (.brIf label) = lowerBrIf "br_if" depth labels height label :=
  rfl

theorem lowerInstr_brTable {table : List UInt32} {default : UInt32} :
    lowerInstr scope depth labels height (.brTable table default) =
      lowerBrTable "br_table" depth labels height table default :=
  rfl

theorem lowerInstr_straight (hi : i.isStraight = true) :
    lowerInstr scope depth labels height i pool = .ok (step, pool') ↔
      ∃ cs height', lowerStraight scope height i = .ok (cs, height') ∧
        step = ⟨cs, .next height'⟩ ∧ pool' = pool := by
  have hlower : lowerInstr scope depth labels height i =
      (do
        let lowered ← (lowerStraight scope height i : Gen _)
        return ⟨lowered.1, .next lowered.2⟩) := by
    cases i <;> first | rfl | cases hi
  rw [hlower]
  constructor
  · intro h
    obtain ⟨⟨cs, height'⟩, hcs, h⟩ := gen_lift_bind_eq_ok.1 h
    obtain ⟨rfl, rfl⟩ := gen_pure_eq_ok.1 h
    exact ⟨cs, height', hcs, rfl, rfl⟩
  · rintro ⟨cs, height', hcs, rfl, rfl⟩
    exact gen_lift_bind_eq_ok.2 ⟨_, hcs, rfl⟩

/-! ## Lists -/

theorem lowerList_nil :
    lowerList scope depth labels height [] pool = .ok (b, pool') ↔
      b = ⟨[], never⟩ ∧ pool' = pool :=
  gen_pure_eq_ok

/-- How a list goes on behind its first instruction. -/
inductive Continues (scope : Scope) (depth : Nat) (labels : List Label) (rest : List Instr)
    (step : Step) (pool : Pool) : Block → Pool → Prop where
  | next {height : UInt32} {code : Block} {pool' : Pool} (hflow : step.flow = .next height)
      (h : lowerList scope depth labels height rest pool = .ok (code, pool')) :
      Continues scope depth labels rest step pool
        ⟨step.commands ++ code.commands, code.target⟩ pool'
  | last {height : UInt32} {target : Nat} {guard : Modifier}
      (hflow : step.flow = .guarded height target guard) (hrest : rest = []) :
      Continues scope depth labels rest step pool ⟨step.commands, target⟩ pool
  | guarded {height : UInt32} {target : Nat} {guard : Modifier} {code : Block} {pool' : Pool}
      (hflow : step.flow = .guarded height target guard) (hrest : rest ≠ [])
      (h : lowerList scope depth labels height rest (pool.push []) = .ok (code, pool')) :
      Continues scope depth labels rest step pool
        ⟨step.commands ++ [(callFragment pool.size).guarded guard], min target code.target⟩
        (pool'.setIfInBounds pool.size code.commands)
  | stop {target : Nat} (hflow : step.flow = .stop target) :
      Continues scope depth labels rest step pool ⟨step.commands, target⟩ pool

theorem lowerList_cons :
    lowerList scope depth labels height (i :: rest) pool = .ok (b, pool') ↔
      ∃ step pool₁, lowerInstr scope depth labels height i pool = .ok (step, pool₁) ∧
        Continues scope depth labels rest step pool₁ b pool' := by
  -- How a list goes on depends on the flow behind its first instruction, and on nothing else of it.
  constructor
  · intro h
    obtain ⟨step, pool₁, hstep, h⟩ := gen_bind_eq_ok.1 h
    refine ⟨step, pool₁, hstep, ?_⟩
    cases hflow : step.flow with
    | next height' =>
      rw [hflow] at h
      obtain ⟨code, pool₂, hcode, h⟩ := gen_bind_eq_ok.1 h
      obtain ⟨rfl, rfl⟩ := gen_pure_eq_ok.1 h
      exact .next hflow hcode
    | guarded height' target guard =>
      rw [hflow] at h
      simp only at h
      split at h
      · rename_i hempty
        obtain ⟨rfl, rfl⟩ := gen_pure_eq_ok.1 h
        exact .last hflow (List.isEmpty_iff.1 hempty)
      -- The number of the fragment is taken before the rest is known, and filled in behind it.
      · rename_i hempty
        obtain ⟨id, pool₂, hid, h⟩ := gen_bind_eq_ok.1 h
        obtain ⟨rfl, rfl⟩ := reserve_eq_ok.1 hid
        obtain ⟨code, pool₃, hcode, h⟩ := gen_bind_eq_ok.1 h
        obtain ⟨u, pool₄, hfill, h⟩ := gen_bind_eq_ok.1 h
        obtain rfl := fill_eq_ok.1 hfill
        obtain ⟨rfl, rfl⟩ := gen_pure_eq_ok.1 h
        exact .guarded hflow (fun hnil => hempty (List.isEmpty_iff.2 hnil)) hcode
    | stop target =>
      rw [hflow] at h
      obtain ⟨rfl, rfl⟩ := gen_pure_eq_ok.1 h
      exact .stop hflow
  · rintro ⟨step, pool₁, hstep, h⟩
    refine gen_bind_eq_ok.2 ⟨step, pool₁, hstep, ?_⟩
    cases h with
    | next hflow h =>
      rw [hflow]
      exact gen_bind_eq_ok.2 ⟨_, _, h, rfl⟩
    | last hflow hrest =>
      rw [hflow]
      simp only
      rw [if_pos (List.isEmpty_iff.2 hrest)]
      rfl
    | guarded hflow hrest h =>
      rw [hflow]
      simp only
      rw [if_neg fun hempty => hrest (List.isEmpty_iff.1 hempty)]
      refine gen_bind_eq_ok.2 ⟨_, _, reserve_eq_ok.2 ⟨rfl, rfl⟩, ?_⟩
      exact gen_bind_eq_ok.2 ⟨_, _, h, gen_bind_eq_ok.2 ⟨(), _, fill_eq_ok.2 rfl, rfl⟩⟩
    | stop hflow =>
      rw [hflow]
      rfl

/-- The nesting of a block is checked before the block is looked at. -/
theorem lowerBlock_eq_ok :
    lowerBlock scope depth labels height body pool = .ok (b, pool') ↔
      depth ≤ maxNesting ∧ lowerList scope depth labels height body pool = .ok (b, pool') := by
  unfold lowerBlock
  constructor
  · intro h
    obtain ⟨u, hnest, h⟩ := gen_lift_bind_eq_ok.1 h
    exact ⟨checkNesting_eq_ok.1 hnest, h⟩
  · rintro ⟨hnest, h⟩
    exact gen_lift_bind_eq_ok.2 ⟨(), checkNesting_eq_ok.2 hnest, h⟩

theorem lowerFunction_eq_ok {spaces : IndexSpaces} {signature : FuncType} {locals : List ValueType} :
    lowerFunction spaces signature locals body pool = .ok (cs, pool') ↔
      ∃ b, lowerList ⟨spaces, signature.params.length + locals.length⟩ 0
          [⟨0, (arityOf signature).results⟩] 0 body pool = .ok (b, pool') ∧
        cs = locals.map (fun _ => .append .frame (.int 0)) ++ b.commands := by
  unfold lowerFunction
  constructor
  · intro h
    obtain ⟨b, pool₁, hb, h⟩ := gen_bind_eq_ok.1 h
    obtain ⟨rfl, rfl⟩ := gen_pure_eq_ok.1 h
    exact ⟨b, (lowerBlock_eq_ok.1 hb).2, rfl⟩
  · rintro ⟨b, hb, rfl⟩
    exact gen_bind_eq_ok.2 ⟨b, pool', lowerBlock_eq_ok.2 ⟨Nat.zero_le _, hb⟩, rfl⟩

/-! ## Instructions without branches -/

theorem checkLocal_eq_ok {index : UInt32} {u : Unit} :
    checkLocal scope index = .ok u ↔ index.toNat < scope.locals := by
  unfold checkLocal
  split
  · rename_i h
    exact ⟨fun _ => h, fun _ => rfl⟩
  · rename_i h
    exact ⟨(fun hok => nomatch hok), fun hlt => absurd hlt h⟩

/-- What an instruction without branches becomes, and the height behind it: one rule for each
    instruction, with all that is asked of it. -/
inductive Lowers (scope : Scope) (height : UInt32) : Instr → List Command → UInt32 → Prop where
  | nop : Lowers scope height .nop [] height
  | call {func base next : UInt32} {entry : FuncEntry} (hf : scope.spaces.funcAt func = .ok entry)
      (hbase : below "call" height (arityOf entry.type).params = .ok base)
      (hnext : above base (arityOf entry.type).results = .ok next) :
      Lowers scope height (.call func) (callSequence (.func func) (arityOf entry.type).params.toNat)
        next
  | drop {base : UInt32} (hbase : below "drop" height 1 = .ok base) :
      Lowers scope height .drop [.dropOperand] base
  | select {base next : UInt32} (hbase : below "select" height 3 = .ok base)
      (hnext : above base 1 = .ok next) :
      Lowers scope height .select
        (popA ++ [(Command.setFrom (.operand (-2)) top).ifIn .a (.exact 0), .dropOperand]) next
  | localGet {index next : UInt32} (hindex : index.toNat < scope.locals)
      (hnext : above height 1 = .ok next) :
      Lowers scope height (.localGet index) [.appendFrom .stack (.local index)] next
  | localSet {index base : UInt32} (hindex : index.toNat < scope.locals)
      (hbase : below "local.set" height 1 = .ok base) :
      Lowers scope height (.localSet index) [.setFrom (.local index) top, .dropOperand] base
  | localTee {index base : UInt32} (hindex : index.toNat < scope.locals)
      (hbase : below "local.tee" height 1 = .ok base) :
      Lowers scope height (.localTee index) [.setFrom (.local index) top] height
  | globalGet {index next : UInt32} {entry : GlobalEntry}
      (hg : scope.spaces.globalAt index = .ok entry) (hnext : above height 1 = .ok next) :
      Lowers scope height (.globalGet index) [.call (.global index .get)] next
  | globalSet {index base : UInt32} {entry : GlobalEntry}
      (hg : scope.spaces.globalAt index = .ok entry)
      (hbase : below "global.set" height 1 = .ok base) :
      Lowers scope height (.globalSet index) [.call (.global index .set)] base
  | load {op : LoadOp} {arg : MemArg} {base next : UInt32} {entry : MemoryEntry} {code : List Command}
      (hm : scope.spaces.memoryAt 0 = .ok entry)
      (hbase : below (Instr.load op arg).mnemonic height 1 = .ok base)
      (hload : lowerLoad op arg = .ok code) (hnext : above base 1 = .ok next) :
      Lowers scope height (.load op arg) code next
  | store {op : StoreOp} {arg : MemArg} {base : UInt32} {entry : MemoryEntry} {code : List Command}
      (hm : scope.spaces.memoryAt 0 = .ok entry)
      (hbase : below (Instr.store op arg).mnemonic height 2 = .ok base)
      (hstore : lowerStore op arg = .ok code) : Lowers scope height (.store op arg) code base
  | memorySize {memory next : UInt32} {entry : MemoryEntry}
      (hm : scope.spaces.memoryAt memory = .ok entry) (hnext : above height 1 = .ok next) :
      Lowers scope height (.memorySize memory) [.call (.memory memory .size)] next
  | memoryGrow {memory base next : UInt32} {entry : MemoryEntry}
      (hm : scope.spaces.memoryAt memory = .ok entry)
      (hbase : below "memory.grow" height 1 = .ok base) (hnext : above base 1 = .ok next) :
      Lowers scope height (.memoryGrow memory) [.call (.memory memory .grow)] next
  | i32Const {value : Int32} {next : UInt32} (hnext : above height 1 = .ok next) :
      Lowers scope height (.i32Const value) [.append .stack (.int value)] next
  | numeric {op : NumericOp} {base next : UInt32} {lowered : Lowered}
      (hop : lowerNumeric op = .ok lowered)
      (hbase : below (Instr.numeric op).mnemonic height lowered.pops = .ok base)
      (hnext : above base lowered.pushes = .ok next) :
      Lowers scope height (.numeric op) lowered.commands next

/-- **Lowering without branches**, instruction by instruction. -/
theorem lowerStraight_eq_ok {height' : UInt32} :
    lowerStraight scope height i = .ok (cs, height') ↔ Lowers scope height i cs height' := by
  constructor
  · intro h
    cases i
    case nop =>
      cases h
      exact .nop
    case call func =>
      obtain ⟨entry, hf, h⟩ := except_bind_eq_ok.1 h
      obtain ⟨base, hbase, h⟩ := except_bind_eq_ok.1 h
      obtain ⟨next, hnext, h⟩ := except_bind_eq_ok.1 h
      cases h
      exact .call hf hbase hnext
    case drop =>
      obtain ⟨base, hbase, h⟩ := except_bind_eq_ok.1 h
      cases h
      exact .drop hbase
    case select =>
      obtain ⟨base, hbase, h⟩ := except_bind_eq_ok.1 h
      obtain ⟨next, hnext, h⟩ := except_bind_eq_ok.1 h
      cases h
      exact .select hbase hnext
    case localGet index =>
      obtain ⟨_, hindex, h⟩ := except_bind_eq_ok.1 h
      obtain ⟨next, hnext, h⟩ := except_bind_eq_ok.1 h
      cases h
      exact .localGet (checkLocal_eq_ok.1 hindex) hnext
    case localSet index =>
      obtain ⟨_, hindex, h⟩ := except_bind_eq_ok.1 h
      obtain ⟨base, hbase, h⟩ := except_bind_eq_ok.1 h
      cases h
      exact .localSet (checkLocal_eq_ok.1 hindex) hbase
    case localTee index =>
      obtain ⟨_, hindex, h⟩ := except_bind_eq_ok.1 h
      obtain ⟨⟨base, hbase⟩, h⟩ := except_discard_bind_eq_ok.1 h
      cases h
      exact .localTee (checkLocal_eq_ok.1 hindex) hbase
    case globalGet index =>
      obtain ⟨⟨entry, hg⟩, h⟩ := except_discard_bind_eq_ok.1 h
      obtain ⟨next, hnext, h⟩ := except_bind_eq_ok.1 h
      cases h
      exact .globalGet hg hnext
    case globalSet index =>
      obtain ⟨⟨entry, hg⟩, h⟩ := except_discard_bind_eq_ok.1 h
      obtain ⟨base, hbase, h⟩ := except_bind_eq_ok.1 h
      cases h
      exact .globalSet hg hbase
    case load op arg =>
      obtain ⟨⟨entry, hm⟩, h⟩ := except_discard_bind_eq_ok.1 h
      obtain ⟨base, hbase, h⟩ := except_bind_eq_ok.1 h
      obtain ⟨code, hload, h⟩ := except_bind_eq_ok.1 h
      obtain ⟨next, hnext, h⟩ := except_bind_eq_ok.1 h
      cases h
      exact .load hm hbase hload hnext
    case store op arg =>
      obtain ⟨⟨entry, hm⟩, h⟩ := except_discard_bind_eq_ok.1 h
      obtain ⟨base, hbase, h⟩ := except_bind_eq_ok.1 h
      obtain ⟨code, hstore, h⟩ := except_bind_eq_ok.1 h
      cases h
      exact .store hm hbase hstore
    case memorySize memory =>
      obtain ⟨⟨entry, hm⟩, h⟩ := except_discard_bind_eq_ok.1 h
      obtain ⟨next, hnext, h⟩ := except_bind_eq_ok.1 h
      cases h
      exact .memorySize hm hnext
    case memoryGrow memory =>
      obtain ⟨⟨entry, hm⟩, h⟩ := except_discard_bind_eq_ok.1 h
      obtain ⟨base, hbase, h⟩ := except_bind_eq_ok.1 h
      obtain ⟨next, hnext, h⟩ := except_bind_eq_ok.1 h
      cases h
      exact .memoryGrow hm hbase hnext
    case i32Const value =>
      obtain ⟨next, hnext, h⟩ := except_bind_eq_ok.1 h
      cases h
      exact .i32Const hnext
    case numeric op =>
      obtain ⟨lowered, hop, h⟩ := except_bind_eq_ok.1 h
      obtain ⟨base, hbase, h⟩ := except_bind_eq_ok.1 h
      obtain ⟨next, hnext, h⟩ := except_bind_eq_ok.1 h
      cases h
      exact .numeric hop hbase hnext
    -- The other instructions are refused, or are not without branches.
    all_goals cases h
  · intro h
    cases h with
    | nop => rfl
    | i32Const hnext => exact except_bind_eq_ok.2 ⟨_, hnext, rfl⟩
    | call hf hbase hnext =>
      exact except_bind_eq_ok.2 ⟨_, hf, except_bind_eq_ok.2 ⟨_, hbase,
        except_bind_eq_ok.2 ⟨_, hnext, rfl⟩⟩⟩
    | drop hbase => exact except_bind_eq_ok.2 ⟨_, hbase, rfl⟩
    | select hbase hnext =>
      exact except_bind_eq_ok.2 ⟨_, hbase, except_bind_eq_ok.2 ⟨_, hnext, rfl⟩⟩
    | localGet hindex hnext =>
      exact except_bind_eq_ok.2 ⟨(), checkLocal_eq_ok.2 hindex,
        except_bind_eq_ok.2 ⟨_, hnext, rfl⟩⟩
    | localSet hindex hbase =>
      exact except_bind_eq_ok.2 ⟨(), checkLocal_eq_ok.2 hindex,
        except_bind_eq_ok.2 ⟨_, hbase, rfl⟩⟩
    | localTee hindex hbase =>
      exact except_bind_eq_ok.2 ⟨(), checkLocal_eq_ok.2 hindex,
        except_discard_bind_eq_ok.2 ⟨⟨_, hbase⟩, rfl⟩⟩
    | globalGet hg hnext =>
      exact except_discard_bind_eq_ok.2 ⟨⟨_, hg⟩, except_bind_eq_ok.2 ⟨_, hnext, rfl⟩⟩
    | globalSet hg hbase =>
      exact except_discard_bind_eq_ok.2 ⟨⟨_, hg⟩, except_bind_eq_ok.2 ⟨_, hbase, rfl⟩⟩
    | load hm hbase hload hnext =>
      exact except_discard_bind_eq_ok.2 ⟨⟨_, hm⟩, except_bind_eq_ok.2 ⟨_, hbase,
        except_bind_eq_ok.2 ⟨_, hload, except_bind_eq_ok.2 ⟨_, hnext, rfl⟩⟩⟩⟩
    | store hm hbase hstore =>
      exact except_discard_bind_eq_ok.2 ⟨⟨_, hm⟩, except_bind_eq_ok.2 ⟨_, hbase,
        except_bind_eq_ok.2 ⟨_, hstore, rfl⟩⟩⟩
    | memorySize hm hnext =>
      exact except_discard_bind_eq_ok.2 ⟨⟨_, hm⟩, except_bind_eq_ok.2 ⟨_, hnext, rfl⟩⟩
    | memoryGrow hm hbase hnext =>
      exact except_discard_bind_eq_ok.2 ⟨⟨_, hm⟩, except_bind_eq_ok.2 ⟨_, hbase,
        except_bind_eq_ok.2 ⟨_, hnext, rfl⟩⟩⟩
    | numeric hop hbase hnext =>
      exact except_bind_eq_ok.2 ⟨_, hop, except_bind_eq_ok.2 ⟨_, hbase,
        except_bind_eq_ok.2 ⟨_, hnext, rfl⟩⟩⟩

end Compile

end WasmPack
