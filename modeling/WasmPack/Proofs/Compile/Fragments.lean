/-
  WasmPack.Proofs.Compile.Fragments

  The pool of fragments while code is generated: it only grows, and a fragment
  keeps its commands once the instruction that it belongs to is done.  So the
  fragments of a piece of code are a stretch of the final pool.
-/
import WasmPack.Proofs.Compile.Inversion
import WasmPack.Proofs.Execution.Loaded

namespace WasmPack.Compile

open Wasm Machine

variable {scope : Scope} {depth : Nat} {labels : List Label} {height label : UInt32}
  {pool pool' pool₁ pool₂ : Pool} {step : Step} {b : Block} {mnemonic : String} {cs : List Command}
  {one : Option Command} {rest : List Instr}

/-! ## Growth -/

/-- Fragments have been added, and those that were there are as they were. -/
structure Extends (pool pool' : Pool) : Prop where
  size_le : pool.size ≤ pool'.size
  kept : ∀ i, i < pool.size → pool'[i]? = pool[i]?

namespace Extends

theorem refl (pool : Pool) : Extends pool pool := ⟨Nat.le_refl _, fun _ _ => rfl⟩

theorem trans (h : Extends pool pool₁) (h' : Extends pool₁ pool₂) : Extends pool pool₂ :=
  ⟨Nat.le_trans h.size_le h'.size_le, fun i hi => by
    rw [h'.kept i (Nat.lt_of_lt_of_le hi h.size_le), h.kept i hi]⟩

theorem push (pool : Pool) (cs : List Command) : Extends pool (pool.push cs) := by
  refine ⟨by rw [Array.size_push]; omega, fun i hi => ?_⟩
  rw [Array.getElem?_push, if_neg (by omega)]

/-- A fragment that was reserved gets its commands. -/
theorem fill (h : Extends (pool.push []) pool') (cs : List Command) :
    Extends pool (pool'.setIfInBounds pool.size cs) := by
  have hpool := (push pool []).trans h
  refine ⟨by rw [Array.size_setIfInBounds]; exact hpool.size_le, fun i hi => ?_⟩
  rw [Array.getElem?_setIfInBounds, if_neg (by omega), hpool.kept i hi]

theorem of_isOne (h : IsOne pool cs one pool') : Extends pool pool' := by
  cases h with
  | none => exact refl pool
  | one c => exact refl pool
  | fragment h => exact push pool cs

theorem of_branchIf {condition : List Modifier} {target : Nat}
    (h : branchIf mnemonic depth labels height label condition pool = .ok ((cs, target), pool')) :
    Extends pool pool' := by
  obtain ⟨l, one, -, -, hone, -⟩ := branchIf_eq_ok.1 h
  exact of_isOne hone

theorem of_branchCases {n least : Nat} {table : List UInt32}
    (h : branchCases mnemonic depth labels height n table pool = .ok ((cs, least), pool')) :
    Extends pool pool' := by
  induction table generalizing n cs least pool with
  | nil =>
    obtain ⟨-, -, rfl⟩ := branchCases_nil.1 h
    exact refl pool'
  | cons label table ih =>
    obtain ⟨jump, target, jumps, least', pool₁, hjump, hjumps, -, -⟩ := branchCases_cons.1 h
    exact (of_branchIf hjump).trans (ih hjumps)

theorem of_lowerLoop (h : lowerLoop depth b height pool = .ok (step, pool')) :
    Extends pool pool' := by
  obtain ⟨-, -, rfl⟩ | ⟨-, -, rfl⟩ := lowerLoop_eq_ok.1 h
  · exact push pool _
  · exact refl pool'

/-- Whatever follows an instruction adds fragments too. -/
theorem of_continues (h : Continues scope depth labels rest step pool b pool')
    (hrest : ∀ {height code pool₁ pool₂},
      lowerList scope depth labels height rest pool₁ = .ok (code, pool₂) → Extends pool₁ pool₂) :
    Extends pool pool' := by
  cases h with
  | next hflow h => exact hrest h
  | last hflow hnil => exact refl pool
  | guarded hflow hne h => exact (hrest h).fill _
  | stop hflow => exact refl pool

end Extends

mutual

theorem extends_lowerInstr (scope : Scope) (depth : Nat) (labels : List Label) (height : UInt32) :
    ∀ (i : Instr) {pool pool' : Pool} {step : Step},
      lowerInstr scope depth labels height i pool = .ok (step, pool') → Extends pool pool'
  | .unreachable, _, _, _, h => by
    obtain ⟨-, rfl⟩ := lowerInstr_unreachable.1 h
    exact .refl _
  | .block type body, _, _, _, h => by
    obtain ⟨arity, b, next, -, -, -, hb, -⟩ := lowerInstr_block.1 h
    exact extends_lowerList scope _ _ _ body hb
  | .loop type body, _, _, _, h => by
    obtain ⟨arity, b, next, pool₁, -, -, -, hb, -, hloop⟩ := lowerInstr_loop.1 h
    exact (extends_lowerList scope _ _ _ body hb).trans (.of_lowerLoop hloop)
  | .ifElse type consequent alternative, _, _, _, h => by
    obtain ⟨arity, first, second, next, pool₁, pool₂, one, other, pool₃, -, -, -, -, hfirst,
      hsecond, hone, hother, -⟩ := lowerInstr_ifElse.1 h
    exact (extends_lowerList scope _ _ _ consequent hfirst).trans
      ((extends_lowerList scope _ _ _ alternative hsecond).trans
        ((Extends.of_isOne hone).trans (.of_isOne hother)))
  | .br label, _, _, _, h => by
    obtain ⟨-, rfl⟩ := lowerInstr_br.1 h
    exact .refl _
  | .brIf label, _, _, _, h => by
    rw [lowerInstr_brIf] at h
    obtain ⟨target, jump, -, hjump, -⟩ := lowerBrIf_eq_ok.1 h
    exact .of_branchIf hjump
  | .brTable table default, _, _, _, h => by
    rw [lowerInstr_brTable] at h
    obtain ⟨cases, least, jump, target, pool₁, -, hcases, hjump, -⟩ := lowerBrTable_eq_ok.1 h
    exact (Extends.of_branchCases hcases).trans (.of_branchIf hjump)
  | .ret, _, _, _, h => by
    obtain ⟨-, rfl⟩ := lowerInstr_ret.1 h
    exact .refl _
  | .nop, _, _, _, h | .call _, _, _, _, h | .callIndirect _ _, _, _, _, h | .drop, _, _, _, h
  | .select, _, _, _, h | .localGet _, _, _, _, h | .localSet _, _, _, _, h
  | .localTee _, _, _, _, h | .globalGet _, _, _, _, h | .globalSet _, _, _, _, h
  | .load _ _, _, _, _, h | .store _ _, _, _, _, h | .memorySize _, _, _, _, h
  | .memoryGrow _, _, _, _, h | .i32Const _, _, _, _, h | .i64Const _, _, _, _, h
  | .f32Const _, _, _, _, h | .f64Const _, _, _, _, h | .numeric _, _, _, _, h => by
    obtain ⟨cs, height', -, -, rfl⟩ := (lowerInstr_straight rfl).1 h
    exact .refl _

theorem extends_lowerList (scope : Scope) (depth : Nat) (labels : List Label) (height : UInt32) :
    ∀ (body : List Instr) {pool pool' : Pool} {b : Block},
      lowerList scope depth labels height body pool = .ok (b, pool') → Extends pool pool'
  | [], _, _, _, h => by
    obtain ⟨-, rfl⟩ := lowerList_nil.1 h
    exact .refl _
  | i :: rest, _, _, _, h => by
    obtain ⟨step, pool₁, hstep, hrest⟩ := lowerList_cons.1 h
    exact (extends_lowerInstr scope depth labels height i hstep).trans
      (.of_continues hrest fun hr => extends_lowerList scope depth labels _ rest hr)

end

/-! ## Fragments in code -/

/-- The commands of the fragment with a number, in code that is loaded. -/
def IsFragment (code : Code) (ns : String) (id : UInt32) (cs : List Command) : Prop :=
  code.function ((Symbol.fragment id).qualifiedName ns) = .ok ⟨ns, cs⟩

/-- The fragments that were added to a pool are found in the code, each with its commands. -/
def Resolved (code : Code) (ns : String) (pool pool' : Pool) : Prop :=
  ∀ i cs, pool.size ≤ i → pool'[i]? = some cs → IsFragment code ns (UInt32.ofNat i) cs

namespace Resolved

variable {code : Code} {ns : String}

/-- A stretch of the pool. -/
theorem stretch (h : Resolved code ns pool pool') (hlo : pool.size ≤ pool₁.size)
    (hhi : Extends pool₂ pool') : Resolved code ns pool₁ pool₂ := by
  intro i cs hi hcs
  have hlt : i < pool₂.size := (Array.getElem?_eq_some_iff.1 hcs).1
  exact h i cs (Nat.le_trans hlo hi) (by rw [hhi.kept i hlt, hcs])

/-- The first part of a stretch. -/
theorem left (h : Resolved code ns pool pool₂) (h' : Extends pool₁ pool₂) :
    Resolved code ns pool pool₁ := h.stretch (Nat.le_refl _) h'

/-- The last part of a stretch. -/
theorem right (h : Resolved code ns pool pool₂) (h' : Extends pool pool₁) :
    Resolved code ns pool₁ pool₂ := h.stretch h'.size_le (.refl _)

/-- A fragment that was added as a whole. -/
theorem last (h : Resolved code ns pool (pool.push cs)) :
    IsFragment code ns (UInt32.ofNat pool.size) cs :=
  h pool.size cs (Nat.le_refl _) Array.getElem?_push_size

/-- A fragment that was reserved, and those that were added before it got its commands. -/
theorem filled (h : Resolved code ns pool (pool'.setIfInBounds pool.size cs))
    (h' : Extends (pool.push []) pool') :
    IsFragment code ns (UInt32.ofNat pool.size) cs ∧ Resolved code ns (pool.push []) pool' := by
  have hsize : pool.size < pool'.size := by
    have hle := h'.size_le
    rw [Array.size_push] at hle
    omega
  refine ⟨h pool.size cs (Nat.le_refl _) ?_, fun i ds hi hds => h i ds ?_ ?_⟩
  · rw [Array.getElem?_setIfInBounds_self_of_lt hsize]
  · rw [Array.size_push] at hi
    omega
  · rw [Array.size_push] at hi
    rw [Array.getElem?_setIfInBounds, if_neg (by omega), hds]

end Resolved

end WasmPack.Compile
