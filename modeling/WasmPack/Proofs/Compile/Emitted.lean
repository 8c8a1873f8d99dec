/-
  WasmPack.Proofs.Compile.Emitted

  The shape of the code of a list of instructions, with the fragments that it
  calls: one rule for each way in which code generation puts commands together.
  That code generation emits such code is shown once; what such code does can
  then be shown by induction on its shape, without a pool in sight.
-/
import Mathlib.Algebra.Ring.Nat
import WasmPack.Proofs.Compile.Fragments
import WasmPack.Proofs.Compile.Straight

namespace WasmPack

namespace Wasm.Instr

mutual

/-- No branch table has more labels than indices can count, which holds of whatever has been read
    from bytes. -/
def fits : Instr → Bool
  | .block _ body => allFit body
  | .loop _ body => allFit body
  | .ifElse _ consequent alternative => allFit consequent && allFit alternative
  | .brTable table _ => decide (table.length ≤ 2 ^ 32)
  | _ => true

/-- The same for every instruction of a list. -/
def allFit : List Instr → Bool
  | [] => true
  | i :: rest => i.fits && allFit rest

end

end Wasm.Instr

namespace Compile

open Wasm Machine

variable {code : Code} {ns : String} {scope : Scope} {few : Prop}

/-! ## Pieces of code -/

/-- A branch to a depth: operands are dropped, and the branch is set off. -/
inductive IsJump (target : Nat) : List Command → Prop where
  | mk (n : Nat) (i : Int32) : IsJump target
      (List.replicate n (.remove (.operand i)) ++ [.setScore .brDepth (Int32.ofNat target)])

/-- A branch to a depth as one command. -/
inductive IsJumpCall (code : Code) (ns : String) (target : Nat) : Command → Prop where
  | direct : IsJumpCall code ns target (.setScore .brDepth (Int32.ofNat target))
  | fragment {id : UInt32} {cs : List Command} (hcs : IsJump target cs)
      (hid : IsFragment code ns id cs) : IsJumpCall code ns target (.call (.fragment id))

/-- The branches of a table from the entry numbered `i` on, with the least depth they target.  The
    last one is taken where no entry is; without entries it is taken in any case. -/
inductive IsTable (code : Code) (ns : String) (few : Prop) (d : Nat) :
    Nat → Nat → List Command → Prop where
  | only {target : Nat} {c : Command} (hc : IsJumpCall code ns target c) (hle : target ≤ d) :
      IsTable code ns few d 0 target [c]
  | default {i target : Nat} {c : Command} {lo hi : Int32} (hc : IsJumpCall code ns target c)
      (hle : target ≤ d) : IsTable code ns few d i target [c.unlessIn .a (.between lo hi)]
  | entry {i target t : Nat} {c : Command} {rest : List Command}
      (hc : IsJumpCall code ns target c) (hle : target ≤ d) (hi : few → i < 2 ^ 32)
      (hrest : IsTable code ns few d (i + 1) t rest) :
      IsTable code ns few d i (min target t) (c.ifIn .a (.exact (Int32.ofNat i)) :: rest)

/-- What follows behind a guard: nothing, or the call of a fragment. -/
inductive IsTail (code : Code) (ns : String) (g : Modifier) (next : List Command) :
    List Command → Prop where
  | none (hnext : next = []) : IsTail code ns g next []
  | fragment {id : UInt32} (hid : IsFragment code ns id next) :
      IsTail code ns g next [(Command.call (.fragment id)).guarded g]

/-- The arm of an `if` as at most one command. -/
inductive IsArm (code : Code) (ns : String) (cs : List Command) : Option Command → Prop where
  | none (hcs : cs = []) : IsArm code ns cs none
  | one {c : Command} (hcs : cs = [c]) : IsArm code ns cs (some c)
  | fragment {id : UInt32} (hid : IsFragment code ns id cs) :
      IsArm code ns cs (some (.call (.fragment id)))

/-- The commands at the end of a construct where branches to its label arrive. -/
def arrivals (d target : Nat) : List Command := if target ≤ d then [catchBranch d] else []

/-- A list of instructions at a depth, or a construct that stands at a depth. -/
inductive Piece where
  | list
  | construct

/-- The code of a piece at a depth, with the least depth that a branch out of it may target. -/
inductive Emitted (code : Code) (ns : String) (scope : Scope) (few : Prop) :
    Piece → Nat → Nat → List Command → Prop where
  | nil {d : Nat} : Emitted code ns scope few .list d never []
  | straight {d t : Nat} {cs rest : List Command} (hcs : IsStraight scope cs)
      (hrest : Emitted code ns scope few .list d t rest) :
      Emitted code ns scope few .list d t (cs ++ rest)
  | jump {d t : Nat} {cs : List Command} (hcs : IsJump t cs) (hle : t ≤ d) :
      Emitted code ns scope few .list d t cs
  | table {d t : Nat} {cs : List Command} (hcs : IsTable code ns few d 0 t cs) :
      Emitted code ns scope few .list d t (popA ++ cs)
  | jumpIf {d target t : Nat} {c : Command} {next tail : List Command}
      (hc : IsJumpCall code ns target c) (hle : target ≤ d)
      (hnext : Emitted code ns scope few .list d t next)
      (htail : IsTail code ns (.ifIn .a (.exact 0)) next tail) :
      Emitted code ns scope few .list d (min target t)
        (popA ++ [c.unlessIn .a (.exact 0)] ++ tail)
  | next {d t t' : Nat} {cs rest : List Command}
      (hcs : Emitted code ns scope few .construct d t cs) (hlt : d < t)
      (hrest : Emitted code ns scope few .list d t' rest) :
      Emitted code ns scope few .list d t' (cs ++ rest)
  | guarded {d t t' : Nat} {cs next tail : List Command}
      (hcs : Emitted code ns scope few .construct d t cs) (hle : t ≤ d)
      (hnext : Emitted code ns scope few .list d t' next)
      (htail : IsTail code ns .ifNoBranch next tail) :
      Emitted code ns scope few .list d (min t t') (cs ++ tail)
  | block {d t : Nat} {cs : List Command} (hnest : d + 1 ≤ maxNesting)
      (hcs : Emitted code ns scope few .list (d + 1) t cs) :
      Emitted code ns scope few .construct d t (cs ++ arrivals (d + 1) t)
  | loop {d t : Nat} {cs : List Command} {id : UInt32} (hnest : d + 1 ≤ maxNesting)
      (hle : t ≤ d + 1) (hcs : Emitted code ns scope few .list (d + 1) t cs)
      (hid : IsFragment code ns id ([.setScore .brDepth noBranch] ++ cs ++
        [(Command.call (.fragment id)).ifIn .brDepth (.exact (Int32.ofNat (d + 1)))])) :
      Emitted code ns scope few .construct d t [.call (.fragment id)]
  | turn {d t : Nat} {cs : List Command} (hnest : d + 1 ≤ maxNesting) (hlt : d + 1 < t)
      (hcs : Emitted code ns scope few .list (d + 1) t cs) :
      Emitted code ns scope few .construct d t cs
  | choice {d t t' : Nat} {cs cs' : List Command} {one other : Option Command}
      (hnest : d + 1 ≤ maxNesting) (hcs : Emitted code ns scope few .list (d + 1) t cs)
      (hcs' : Emitted code ns scope few .list (d + 1) t' cs') (hone : IsArm code ns cs one)
      (hother : IsArm code ns cs' other) :
      Emitted code ns scope few .construct d (min t t')
        (choose one other ++ arrivals (d + 1) (min t t'))

/-! ## Branches -/

variable {depth : Nat} {labels : List Label} {height label : UInt32}
  {pool pool' : Pool} {step : Step} {b : Block} {mnemonic : String} {cs : List Command}
  {one : Option Command} {rest : List Instr} {target : Nat} {l : Label}

theorem lt_never_of_le (h : target ≤ depth) (hd : depth ≤ maxNesting) : target < never := by
  have hlt : maxNesting < never := by decide
  omega

/-- An accepted depth does not stand for no branch. -/
theorem ofNat_ne_noBranch {d : Nat} (hd : d ≤ maxNesting) : Int32.ofNat d ≠ noBranch := by
  intro h
  have hmax : maxNesting < 2 ^ 31 - 1 := by decide
  have hint := congrArg Int32.toInt h
  rw [Int32.toInt_ofNat_of_lt (by omega)] at hint
  have hlast : noBranch.toInt = 2 ^ 31 - 1 := by decide
  omega

theorem isJump_branchCommands : IsJump target (branchCommands height target l) := .mk _ _

/-- A branch that has become at most one command has become one. -/
theorem exists_jumpCall (h : IsOne pool (branchCommands height target l) one pool')
    (hr : Resolved code ns pool pool') : ∃ c, one = some c ∧ IsJumpCall code ns target c := by
  generalize hcs : branchCommands height target l = cs at h
  have hjump : IsJump target cs := hcs ▸ isJump_branchCommands
  cases h with
  | none => exact absurd hcs (by simp [branchCommands])
  | one c =>
    refine ⟨c, rfl, ?_⟩
    unfold branchCommands at hcs
    obtain ⟨-, hc⟩ := List.append_inj' (hcs.trans (List.nil_append [c]).symm) rfl
    rw [← List.singleton_inj.1 hc]
    exact .direct
  | fragment h => exact ⟨_, rfl, .fragment hjump hr.last⟩

/-- A branch under conditions. -/
theorem exists_of_branchIf {condition : List Modifier}
    (h : branchIf mnemonic depth labels height label condition pool = .ok ((cs, target), pool'))
    (hr : Resolved code ns pool pool') : target ≤ depth ∧ ∃ c, IsJumpCall code ns target c ∧
      cs = [condition.foldr (fun m c => c.guarded m) c] := by
  obtain ⟨l, one, hl, -, hone, rfl⟩ := branchIf_eq_ok.1 h
  obtain ⟨-, rfl, -⟩ := labelAt_eq_ok.1 hl
  obtain ⟨c, rfl, hc⟩ := exists_jumpCall hone hr
  exact ⟨Nat.sub_le _ _, c, hc, rfl⟩

/-- The entries of a table in front of what is taken where no entry is. -/
theorem isTable_of_branchCases {i least last : Nat} {table : List UInt32} {tail : List Command}
    (hd : depth ≤ maxNesting) (hfew : few → i + table.length ≤ 2 ^ 32)
    (h : branchCases mnemonic depth labels height i table pool = .ok ((cs, least), pool'))
    (hr : Resolved code ns pool pool')
    (htail : IsTable code ns few depth (i + table.length) last tail) (hlast : last ≤ depth) :
    IsTable code ns few depth i (min least last) (cs ++ tail) := by
  induction table generalizing i cs least pool with
  | nil =>
    obtain ⟨rfl, rfl, rfl⟩ := branchCases_nil.1 h
    have hlt := lt_never_of_le hlast hd
    rw [Nat.min_eq_right (by omega)]
    exact htail
  | cons label table ih =>
    obtain ⟨jump, target, jumps, least', pool₁, hjump, hjumps, rfl, rfl⟩ := branchCases_cons.1 h
    obtain ⟨hle, c, hc, rfl⟩ := exists_of_branchIf hjump (hr.left (.of_branchCases hjumps))
    rw [List.length_cons] at hfew htail
    rw [Nat.min_assoc]
    refine .entry hc hle (fun h => ?_) (ih (fun h => ?_) hjumps (hr.right (.of_branchIf hjump)) ?_)
    · have hbound := hfew h
      omega
    · have hbound := hfew h
      omega
    · rwa [Nat.add_right_comm, Nat.add_assoc]

/-! ## Steps -/

/-- The commands of an instruction, by how things go on behind it. -/
inductive StepEmitted (code : Code) (ns : String) (scope : Scope) (few : Prop) (d : Nat) :
    Step → Prop where
  | straight {height : UInt32} {cs : List Command} (hcs : IsStraight scope cs) :
      StepEmitted code ns scope few d ⟨cs, .next height⟩
  | jump {t : Nat} {cs : List Command} (hcs : IsJump t cs) (hle : t ≤ d) :
      StepEmitted code ns scope few d ⟨cs, .stop t⟩
  | table {t : Nat} {cs : List Command} (hcs : IsTable code ns few d 0 t cs) :
      StepEmitted code ns scope few d ⟨popA ++ cs, .stop t⟩
  | jumpIf {target : Nat} {height : UInt32} {c : Command} (hc : IsJumpCall code ns target c)
      (hle : target ≤ d) : StepEmitted code ns scope few d
        ⟨popA ++ [c.unlessIn .a (.exact 0)], .guarded height target (.ifIn .a (.exact 0))⟩
  | construct {t : Nat} {height : UInt32} {cs : List Command}
      (hcs : Emitted code ns scope few .construct d t cs) :
      StepEmitted code ns scope few d ⟨cs, escape d t height⟩

theorem stepEmitted_lowerBr
    (h : lowerBr mnemonic depth labels height label = .ok step) :
    StepEmitted code ns scope few depth step := by
  obtain ⟨target, l, hl, -, rfl⟩ := lowerBr_eq_ok.1 h
  obtain ⟨-, rfl, -⟩ := labelAt_eq_ok.1 hl
  exact .jump isJump_branchCommands (Nat.sub_le _ _)

theorem stepEmitted_lowerBrIf
    (h : lowerBrIf mnemonic depth labels height label pool = .ok (step, pool'))
    (hr : Resolved code ns pool pool') : StepEmitted code ns scope few depth step := by
  obtain ⟨target, jump, -, hjump, rfl⟩ := lowerBrIf_eq_ok.1 h
  obtain ⟨hle, c, hc, rfl⟩ := exists_of_branchIf hjump hr
  exact .jumpIf hc hle

theorem stepEmitted_lowerBrTable {table : List UInt32} {default : UInt32}
    (hd : depth ≤ maxNesting) (hfew : few → table.length ≤ 2 ^ 32)
    (h : lowerBrTable mnemonic depth labels height table default pool = .ok (step, pool'))
    (hr : Resolved code ns pool pool') : StepEmitted code ns scope few depth step := by
  obtain ⟨cases', least, jump, target, pool₁, -, hcases, hjump, rfl⟩ := lowerBrTable_eq_ok.1 h
  obtain ⟨hle, c, hc, rfl⟩ := exists_of_branchIf hjump (hr.right (.of_branchCases hcases))
  have hlast : IsTable code ns few depth (0 + table.length) target
      [(outsideTable table).foldr (fun m c => c.guarded m) c] := by
    unfold outsideTable
    split
    · rename_i hempty
      rw [List.isEmpty_iff.1 hempty]
      exact .only hc hle
    · exact .default hc hle
  rw [List.append_assoc]
  exact .table (isTable_of_branchCases hd (by rwa [Nat.zero_add]) hcases
    (hr.left (.of_branchIf hjump)) hlast hle)

theorem stepEmitted_lowerLoop (hnest : depth + 1 ≤ maxNesting)
    (hb : Emitted code ns scope few .list (depth + 1) b.target b.commands)
    (h : lowerLoop depth b height pool = .ok (step, pool')) (hr : Resolved code ns pool pool') :
    StepEmitted code ns scope few depth step := by
  obtain ⟨hle, rfl, rfl⟩ | ⟨hlt, rfl, rfl⟩ := lowerLoop_eq_ok.1 h
  · exact .construct (.loop hnest hle hb hr.last)
  · exact .construct (.turn hnest hlt hb)

theorem isArm_of_isOne (h : IsOne pool cs one pool') (hr : Resolved code ns pool pool') :
    IsArm code ns cs one := by
  cases h with
  | none => exact .none rfl
  | one c => exact .one rfl
  | fragment h => exact .fragment hr.last

/-! ## Lists -/

/-- What follows an instruction, behind a construct that may be left by branches to a depth. -/
theorem emitted_behind_construct {t : Nat} (hd : depth ≤ maxNesting)
    (hcs : Emitted code ns scope few .construct depth t cs)
    (h : Continues scope depth labels rest ⟨cs, escape depth t height⟩ pool b pool')
    (hr : Resolved code ns pool pool')
    (hrest : ∀ {height code' pool₁ pool₂}, Resolved code ns pool₁ pool₂ →
      lowerList scope depth labels height rest pool₁ = .ok (code', pool₂) →
      Emitted code ns scope few .list depth code'.target code'.commands) :
    Emitted code ns scope few .list depth b.target b.commands := by
  by_cases hle : t ≤ depth
  · have hflow : escape depth t height = .guarded height t .ifNoBranch := if_pos hle
    have hlt := lt_never_of_le hle hd
    rw [hflow] at h
    cases h with
    | next hf h => cases hf
    | last hf hnil =>
      cases hf
      have hguarded := Emitted.guarded hcs hle .nil (IsTail.none rfl)
      rwa [List.append_nil, Nat.min_eq_left (by omega)] at hguarded
    | guarded hf hne h =>
      cases hf
      obtain ⟨hid, hr'⟩ := hr.filled (extends_lowerList scope depth labels _ rest h)
      exact .guarded hcs hle (hrest hr' h) (.fragment hid)
    | stop hf => cases hf
  · have hflow : escape depth t height = .next height := if_neg hle
    rw [hflow] at h
    cases h with
    | next hf h =>
      cases hf
      exact .next hcs (by omega) (hrest hr h)
    | last hf hnil => cases hf
    | guarded hf hne h => cases hf
    | stop hf => cases hf

/-- What follows any instruction. -/
theorem emitted_continues (hd : depth ≤ maxNesting)
    (hstep : StepEmitted code ns scope few depth step)
    (h : Continues scope depth labels rest step pool b pool') (hr : Resolved code ns pool pool')
    (hrest : ∀ {height code' pool₁ pool₂}, Resolved code ns pool₁ pool₂ →
      lowerList scope depth labels height rest pool₁ = .ok (code', pool₂) →
      Emitted code ns scope few .list depth code'.target code'.commands) :
    Emitted code ns scope few .list depth b.target b.commands := by
  -- Each form of step has one flow, and with that one way for the list to go on.
  cases hstep with
  | straight hcs =>
    cases h with
    | next hf h =>
      cases hf
      exact .straight hcs (hrest hr h)
    | last hf hnil => cases hf
    | guarded hf hne h => cases hf
    | stop hf => cases hf
  | jump hcs hle =>
    cases h with
    | next hf h => cases hf
    | last hf hnil => cases hf
    | guarded hf hne h => cases hf
    | stop hf =>
      cases hf
      exact .jump hcs hle
  | table hcs =>
    cases h with
    | next hf h => cases hf
    | last hf hnil => cases hf
    | guarded hf hne h => cases hf
    | stop hf =>
      cases hf
      exact .table hcs
  | jumpIf hc hle =>
    have hlt := lt_never_of_le hle hd
    cases h with
    | next hf h => cases hf
    -- Nothing follows: the guard is there all the same, in front of an empty list.
    | last hf hnil =>
      cases hf
      have hjump : Emitted code ns scope few .list depth _ _ :=
        .jumpIf hc hle .nil (.none rfl)
      rwa [List.append_nil, Nat.min_eq_left (by omega)] at hjump
    | guarded hf hne h =>
      cases hf
      obtain ⟨hid, hr'⟩ := hr.filled (extends_lowerList scope depth labels _ rest h)
      exact .jumpIf hc hle (hrest hr' h) (.fragment hid)
    | stop hf => cases hf
  | construct hcs => exact emitted_behind_construct hd hcs h hr hrest

mutual

theorem stepEmitted_lowerInstr (scope : Scope) (depth : Nat) (labels : List Label)
    (height : UInt32) : ∀ (i : Instr) {pool pool' : Pool} {step : Step},
      lowerInstr scope depth labels height i pool = .ok (step, pool') → depth ≤ maxNesting →
      (few → i.fits = true) → Resolved code ns pool pool' →
      StepEmitted code ns scope few depth step
  | .unreachable, _, _, _, h, _, _, _ => by
    obtain ⟨rfl, -⟩ := lowerInstr_unreachable.1 h
    exact .jump (.mk 0 0) (Nat.zero_le _)
  | .block type body, _, _, _, h, _, hfew, hr => by
    obtain ⟨arity, b, next, -, -, hnest, hb, -, rfl⟩ := lowerInstr_block.1 h
    rw [Instr.fits] at hfew
    exact .construct (.block hnest (emitted_lowerList scope _ _ _ body hb hnest hfew hr))
  | .loop type body, _, _, _, h, _, hfew, hr => by
    obtain ⟨arity, b, next, pool₁, -, -, hnest, hb, -, hloop⟩ := lowerInstr_loop.1 h
    rw [Instr.fits] at hfew
    exact stepEmitted_lowerLoop hnest
      (emitted_lowerList scope _ _ _ body hb hnest hfew (hr.left (.of_lowerLoop hloop))) hloop
      (hr.right (extends_lowerList scope _ _ _ body hb))
  | .ifElse type consequent alternative, _, _, _, h, _, hfew, hr => by
    obtain ⟨arity, first, second, next, pool₁, pool₂, one, other, pool₃, -, -, -, hnest, hfirst,
      hsecond, hone, hother, -, rfl⟩ := lowerInstr_ifElse.1 h
    rw [Instr.fits] at hfew
    -- The fragments of the arms come before the arms themselves.
    have h₁ := extends_lowerList scope _ _ _ consequent hfirst
    have h₂ := extends_lowerList scope _ _ _ alternative hsecond
    have h₃ := Extends.of_isOne hone
    have h₄ := Extends.of_isOne hother
    exact .construct (.choice hnest
      (emitted_lowerList scope _ _ _ consequent hfirst hnest
        (fun hf => (Bool.and_eq_true_iff.1 (hfew hf)).1) (hr.left (h₂.trans (h₃.trans h₄))))
      (emitted_lowerList scope _ _ _ alternative hsecond hnest
        (fun hf => (Bool.and_eq_true_iff.1 (hfew hf)).2) ((hr.right h₁).left (h₃.trans h₄)))
      (isArm_of_isOne hone ((hr.right (h₁.trans h₂)).left h₄))
      (isArm_of_isOne hother (hr.right (h₁.trans (h₂.trans h₃)))))
  | .br label, _, _, _, h, _, _, _ => stepEmitted_lowerBr (lowerInstr_br.1 h).1
  | .brIf label, _, _, _, h, _, _, hr => by
    rw [lowerInstr_brIf] at h
    exact stepEmitted_lowerBrIf h hr
  | .brTable table default, _, _, _, h, hd, hfew, hr => by
    rw [lowerInstr_brTable] at h
    rw [Instr.fits] at hfew
    exact stepEmitted_lowerBrTable hd (fun hf => of_decide_eq_true (hfew hf)) h hr
  | .ret, _, _, _, h, _, _, _ => stepEmitted_lowerBr (lowerInstr_ret.1 h).1
  | .nop, _, _, _, h, _, _, _ | .call _, _, _, _, h, _, _, _
  | .callIndirect _ _, _, _, _, h, _, _, _ | .drop, _, _, _, h, _, _, _
  | .select, _, _, _, h, _, _, _ | .localGet _, _, _, _, h, _, _, _
  | .localSet _, _, _, _, h, _, _, _ | .localTee _, _, _, _, h, _, _, _
  | .globalGet _, _, _, _, h, _, _, _ | .globalSet _, _, _, _, h, _, _, _
  | .load _ _, _, _, _, h, _, _, _ | .store _ _, _, _, _, h, _, _, _
  | .memorySize _, _, _, _, h, _, _, _ | .memoryGrow _, _, _, _, h, _, _, _
  | .i32Const _, _, _, _, h, _, _, _ | .i64Const _, _, _, _, h, _, _, _
  | .f32Const _, _, _, _, h, _, _, _ | .f64Const _, _, _, _, h, _, _, _
  | .numeric _, _, _, _, h, _, _, _ => by
    obtain ⟨cs, height', hcs, rfl, -⟩ := (lowerInstr_straight rfl).1 h
    exact .straight (isStraight_of_lowerStraight hcs)

/-- **Emitted code.**  Code generation puts the commands of a list of instructions together by the
    rules above. -/
theorem emitted_lowerList (scope : Scope) (depth : Nat) (labels : List Label) (height : UInt32) :
    ∀ (body : List Instr) {pool pool' : Pool} {b : Block},
      lowerList scope depth labels height body pool = .ok (b, pool') → depth ≤ maxNesting →
      (few → Instr.allFit body = true) → Resolved code ns pool pool' →
      Emitted code ns scope few .list depth b.target b.commands
  | [], _, _, _, h, _, _, _ => by
    obtain ⟨rfl, -⟩ := lowerList_nil.1 h
    exact .nil
  | i :: rest, _, _, _, h, hd, hfew, hr => by
    obtain ⟨step, pool₁, hstep, hrest⟩ := lowerList_cons.1 h
    rw [Instr.allFit] at hfew
    have hext : ∀ {height code' pool₁ pool₂},
        lowerList scope depth labels height rest pool₁ = .ok (code', pool₂) →
        Extends pool₁ pool₂ := fun h => extends_lowerList scope depth labels _ rest h
    have hi := stepEmitted_lowerInstr scope depth labels height i hstep hd
      (fun hf => (Bool.and_eq_true_iff.1 (hfew hf)).1)
      (hr.left (.of_continues hrest hext))
    exact emitted_continues hd hi hrest (hr.right (extends_lowerInstr scope _ _ _ i hstep))
      fun hr' h' => emitted_lowerList scope depth labels _ rest h' hd
        (fun hf => (Bool.and_eq_true_iff.1 (hfew hf)).2) hr'

end

end Compile

end WasmPack
