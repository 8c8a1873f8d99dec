/-
  WasmPack.Proofs.Operators.Effects

  What the commands of every operator leave behind: one number in place of its
  operands, and nothing else but registers that are lettered.  This holds of zero
  divisors too, for which the operator has no value.

  The number is the value of the operator.  What is left to show of that, besides
  counts, shifts, and division, are comparisons, arithmetic and sign extension.
  Registers compare with the sign.  Where numbers are to be compared without it,
  both are moved by half the range first, which wraps around and keeps the order.
  Whether the comparison holds is stored over the operand that is left.
-/
import WasmPack.Proofs.Operators.Counts
import WasmPack.Proofs.Operators.Division
import WasmPack.Proofs.Operators.Shifts
import WasmPack.Proofs.Operators.Values

namespace WasmPack

open Machine Compile Wasm
open Nbt (entries position?_top set_top write_listOf)

/-! ## Values of comparisons -/

/-- The number that the bits spell, with a sign or without. -/
def Wasm.Signedness.read : Signedness → Int32 → Int
  | .signed, n => n.toInt
  | .unsigned, n => WasmPack.unsigned n

/-- Whether two integers compare so. -/
def Wasm.IntRel.holds : IntRel → Int32 → Int32 → Bool
  | .eq, x, y => x = y
  | .ne, x, y => x ≠ y
  | .lt s, x, y => s.read x < s.read y
  | .gt s, x, y => s.read x > s.read y
  | .le s, x, y => s.read x ≤ s.read y
  | .ge s, x, y => s.read x ≥ s.read y

namespace Machine

variable {code : Code} {ns : String} {cs : List Command} {σ : State} {Q : State → Prop}
  {tags : TagTable} {sign : Signedness} {g : Modifier} {x y m n : Int32} {v : Nbt} {low : List Nbt}
  {b : Bool}

/-! ## Order -/

/-- The number that registers compare in place of an operand. -/
def biased (sign : Signedness) (n : Int32) : Int32 :=
  match sign with
  | .signed => n
  | .unsigned => n + Int32.minValue

theorem biased_le_iff : biased sign x ≤ biased sign y ↔ sign.read x ≤ sign.read y := by
  rw [Int32.le_iff_toInt_le]
  cases sign with
  | signed => exact Iff.rfl
  | unsigned =>
    rw [biased, biased, toInt_biased, toInt_biased, Signedness.read, Signedness.read]
    omega

theorem biased_lt_iff : biased sign x < biased sign y ↔ sign.read x < sign.read y := by
  rw [← Int32.not_le, biased_le_iff, Int.not_le]

/-! ## Commands -/

/-- Both operands are moved, if they are compared without their signs. -/
theorem Computes.bias (ha : σ.regs .a = some x) (hb : σ.regs .b = some y)
    (h : ∀ τ, Touches lettered σ τ → τ.regs .a = some (biased sign x) →
      τ.regs .b = some (biased sign y) → Computes code ns cs τ Q) :
    Computes code ns (Compile.bias sign ++ cs) σ Q := by
  cases sign with
  | signed => exact h σ .refl ha hb
  | unsigned =>
    apply Computes.add ha
    apply Computes.add (m := y) (by simp [hb])
    exact h _ (by simp [lettered]) (by simp [biased]) (by simp [biased])

/-- Whether a condition holds is stored over the topmost operand. -/
theorem steps_storeTruth (hg : σ.allows g = some b)
    (hstack : σ.operands = some (entries (low ++ [v]))) :
    Steps tags ns (storeTruth g) σ [] (σ.setOperands (low ++ [.int b.toInt32])) := by
  obtain ⟨_, hwrite⟩ := write_listOf (f := id) (y := .int b.toInt32) (position?_top low (x := v))
  rw [set_top] at hwrite
  exact .test hg (stores_storage (k := "stack") rfl (List.cons_ne_nil _ _) hstack hwrite)

/-- The topmost operand gives way to whether a condition holds. -/
theorem Computes.storeTruth {τ : State} (hτ : Touches lettered (σ.setOperands (low ++ [v])) τ)
    (hg : τ.allows g = some b) :
    Computes code ns [Compile.storeTruth g] τ
      (Touches lettered (σ.setOperands (low ++ [.int b.toInt32]))) := by
  have hstack : τ.operands = some (entries (low ++ [v])) := by
    rw [hτ.operands, State.operands_setOperands]
  have hend : Touches lettered (σ.setOperands (low ++ [.int b.toInt32]))
      (τ.setOperands (low ++ [.int b.toInt32])) := by
    rw [← State.setOperands_setOperands σ (low ++ [v])]
    exact hτ.setOperands _
  exact .plain (steps_storeTruth hg hstack) (.nil hend)

/-! ## Comparisons -/

theorem allows_relation {op : Compare} (ha : σ.regs .a = some m) (hb : σ.regs .b = some n) :
    σ.allows (.onlyIf (relation op)) = some (op.holds m n) := by
  show (σ.regs .a).bind (fun x => (σ.regs .b).map fun y => op.holds x y) = _
  rw [ha, hb]
  rfl

theorem allows_exceptIf {c : Condition} (h : σ.allows (.onlyIf c) = some b) :
    σ.allows (.exceptIf c) = some (!b) := congrArg (Option.map (!·)) h

/-- Both operands give way to whether the condition holds of them. -/
theorem replaces_comparison (sign : Signedness)
    (hg : ∀ τ : State, τ.regs .a = some (biased sign x) → τ.regs .b = some (biased sign y) →
      τ.allows g = some b) :
    Replaces code (comparison sign g).commands [x, y] b.toInt32 := by
  intro ns σ low _ hstack
  show Computes code ns (loadOperands ++ bias sign ++ [storeTruth g]) σ _
  rw [List.append_assoc]
  apply Computes.loadOperands hstack
  apply Computes.bias State.loaded_a State.loaded_b
  intro τ hτ ha hb
  exact .storeTruth (touches_loaded.trans hτ) (hg τ ha hb)

/-- A comparison leaves one where it holds, and zero where it does not. -/
theorem replaces_lowerRel (rel : IntRel) :
    Replaces code (lowerRel rel).commands [x, y] (rel.holds x y).toInt32 := by
  cases rel with
  | eq => exact replaces_comparison .signed fun τ ha hb => allows_relation ha hb
  | ne =>
    apply replaces_comparison .signed
    intro τ ha hb
    rw [allows_exceptIf (allows_relation ha hb), IntRel.holds, decide_not]
    rfl
  | lt s | gt s =>
    apply replaces_comparison s
    intro τ ha hb
    rw [allows_relation ha hb, Compare.holds, IntRel.holds, decide_eq_decide.2 biased_lt_iff]
  | le s | ge s =>
    apply replaces_comparison s
    intro τ ha hb
    rw [allows_relation ha hb, Compare.holds, IntRel.holds, decide_eq_decide.2 biased_le_iff]

/-- The test leaves one for zero, and zero for everything else. -/
theorem replaces_eqz : Replaces code [.load .a top, storeTruth (.ifIn .a (.exact 0))] [x]
    (decide (x = 0)).toInt32 := by
  intro ns σ low _ hstack
  apply Computes.plain (steps_loadTop hstack)
  exact .storeTruth (touches_loadedTop hstack) (allows_ifIn_exact (by simp))

end Machine

/-! ## Values of operators -/

/-- What an operator on 32-bit integers gives for its operands, if it does not trap. -/
def Wasm.NumericOp.value? : NumericOp → List Int32 → Option Int32
  | .eqz .w32, [x] => some (decide (x = 0)).toInt32
  | .intRel .w32 rel, [x, y] => some (rel.holds x y).toInt32
  | .intUnary .w32 op, [x] => some (op.value x)
  | .intBinary .w32 op, [x, y] => op.value? x y
  | .extend8 .w32, [x] => some x.toInt8.toInt32
  | .extend16 .w32, [x] => some x.toInt16.toInt32
  | _, _ => none

/-- The number is the value of the operator, which only operators of division may lack. -/
def Wasm.NumericOp.Gives (op : NumericOp) (xs : List Int32) (z : Int32) : Prop :=
  op.value? xs = some z ∨ op.value? xs = none ∧
    ∃ sign, op = .intBinary .w32 (.div sign) ∨ op = .intBinary .w32 (.rem sign)

namespace Machine

variable {code : Code} {x y z modulus : Int32} {n : Nat}

theorem division_of_value?_eq_none {op : IntBinary} (h : op.value? x y = none) :
    ∃ sign, op = .div sign ∨ op = .rem sign := by
  cases op with
  | div sign => exact ⟨sign, .inl rfl⟩
  | rem sign => exact ⟨sign, .inr rfl⟩
  | shr sign => cases sign <;> cases h
  | _ => cases h

/-! ## Arithmetic -/

theorem turns_operation {op : ScoreOp} (hop : op ≠ .swap) :
    Turns code lettered [.operation .a op .b] x y (applyOp op x y) := by
  intro ns σ _ ha hb
  apply Computes.op hop ha hb
  exact .nil (by simp [lettered])

theorem implements_arithmetic {op : IntBinary} (hop : op = .add ∨ op = .sub ∨ op = .mul) :
    Implements code (binaryBody op) op := by
  intro x y
  obtain rfl | rfl | rfl := hop
  · exact ⟨_, turns_operation (by decide), fun _ => Option.some.inj⟩
  · exact ⟨_, turns_operation (by decide), fun _ => Option.some.inj⟩
  · exact ⟨_, turns_operation (by decide), fun _ => Option.some.inj⟩

/-! ## Sign extension -/

/-- A number is reduced to its low bits, of which the top one is read as the sign. -/
theorem yields_signExtend (hseed : modulus ∈ Register.seeded) (hn : 0 < n)
    (hmod : modulus.toInt = 2 * n) (hhalf : (modulus / 2).toInt = n) :
    Yields code lettered (signExtend modulus) x (Int32.ofInt (x.toInt.bmod (2 * n))) := by
  intro ns σ hσ ha
  have hne : modulus ≠ 0 := by
    rintro rfl
    have hzero : (0 : Int32).toInt = 0 := rfl
    omega
  -- The low bits without a sign.
  obtain ⟨r, hr⟩ : ∃ r, r = applyOp .mod x modulus := ⟨_, rfl⟩
  have hlow : r.toInt = x.toInt % (2 * n) := by
    rw [hr, toInt_applyOp_mod hne, hmod, Int.fmod_eq_emod_of_nonneg _ (by omega)]
  have hcast : ((2 * n : Nat) : Int) = 2 * n := by omega
  have hend := Int.bmod_def x.toInt (2 * n)
  rw [hcast, ← hlow] at hend
  apply Computes.op (by decide) ha (hσ modulus hseed)
  rw [← hr]
  apply Computes.ifIn contains_atLeast (n := r) (by simp)
  · intro hhigh
    have hz : Int32.ofInt (x.toInt.bmod (2 * n)) = r + -modulus := by
      rw [hend, if_neg (by omega), ← hmod, Int32.ofInt_sub, Int32.ofInt_toInt, Int32.ofInt_toInt,
        Int32.sub_eq_add_neg]
    apply Computes.add (m := r) (by simp)
    exact .nil (by simp [lettered, hz])
  · intro hless
    have hz : Int32.ofInt (x.toInt.bmod (2 * n)) = r := by
      rw [hend, if_pos (by omega), Int32.ofInt_toInt]
    exact .nil (by simp [lettered, hz])

theorem ofInt_bmod_eight : Int32.ofInt (x.toInt.bmod (2 * 128)) = x.toInt8.toInt32 := by
  rw [← Int32.ofInt_toInt x.toInt8.toInt32, Int8.toInt_toInt32, Int32.toInt_toInt8]

theorem ofInt_bmod_sixteen : Int32.ofInt (x.toInt.bmod (2 * 32768)) = x.toInt16.toInt32 := by
  rw [← Int32.ofInt_toInt x.toInt16.toInt32, Int16.toInt_toInt32, Int32.toInt_toInt16]

theorem yields_extend8 : Yields code lettered (signExtend 256) x x.toInt8.toInt32 := by
  rw [← ofInt_bmod_eight]
  exact yields_signExtend (by decide) (by decide) rfl rfl

theorem yields_extend16 : Yields code lettered (signExtend 65536) x x.toInt16.toInt32 := by
  rw [← ofInt_bmod_sixteen]
  exact yields_signExtend (by decide) (by decide) rfl rfl

/-! ## All operators -/

theorem implements_binaryBody (hlib : code.HasLibrary) (op : IntBinary) :
    Implements code (binaryBody op) op := by
  cases op with
  | add => exact implements_arithmetic (.inl rfl)
  | sub => exact implements_arithmetic (.inr (.inl rfl))
  | mul => exact implements_arithmetic (.inr (.inr rfl))
  | div sign => exact implements_division hlib (.inl rfl)
  | rem sign => exact implements_division hlib (.inr rfl)
  | and => exact implements_bitwise hlib (.inl rfl)
  | or => exact implements_bitwise hlib (.inr (.inl rfl))
  | xor => exact implements_bitwise hlib (.inr (.inr rfl))
  | shl => exact @implements_shift code .shl .signed hlib (.inl rfl)
  | shr sign => exact implements_shift hlib (.inr (.inl rfl))
  | rotl => exact @implements_shift code .rotl .signed hlib (.inr (.inr (.inl rfl)))
  | rotr => exact @implements_shift code .rotr .signed hlib (.inr (.inr (.inr rfl)))

/-- Two operands give way to one number, whether or not the operator has a value for them. -/
theorem replaces_binary (hlib : code.HasLibrary) (op : IntBinary) (x y : Int32) :
    ∃ z, Replaces code (binary (binaryBody op)).commands [x, y] z ∧
      (NumericOp.intBinary .w32 op).Gives [x, y] z := by
  obtain ⟨z, hz, hvalue⟩ := implements_binaryBody hlib op x y
  refine ⟨z, hz.binary, ?_⟩
  cases hr : op.value? x y with
  | some r => exact .inl (hvalue r hr ▸ hr)
  | none =>
    obtain ⟨sign, rfl | rfl⟩ := division_of_value?_eq_none hr
    · exact .inr ⟨hr, sign, .inl rfl⟩
    · exact .inr ⟨hr, sign, .inr rfl⟩

/-- As many operands as the operator takes give way to one number. -/
theorem replaces_of_lowerNumeric {op : NumericOp} {l : Lowered} {xs : List Int32}
    (hlib : code.HasLibrary) (hop : lowerNumeric op = .ok l) (hlen : xs.length = l.pops.toNat) :
    l.pushes = 1 ∧ ∃ z, Replaces code l.commands xs z ∧ op.Gives xs z := by
  -- The operators that are translated, by their shape, and one case for all others.
  unfold lowerNumeric at hop
  split at hop
  · cases hop
    obtain ⟨x, rfl⟩ := List.length_eq_one_iff.1 hlen
    exact ⟨rfl, _, replaces_eqz, .inl rfl⟩
  · rename_i rel
    cases hop
    obtain ⟨x, y, rfl⟩ := List.length_eq_two.1 (by cases rel <;> exact hlen)
    exact ⟨by cases rel <;> rfl, _, replaces_lowerRel rel, .inl rfl⟩
  · rename_i count
    cases hop
    obtain ⟨x, rfl⟩ := List.length_eq_one_iff.1 hlen
    exact ⟨rfl, _, (yields_count hlib count).unary, .inl rfl⟩
  · rename_i op
    cases hop
    obtain ⟨x, y, rfl⟩ := List.length_eq_two.1 hlen
    exact ⟨rfl, replaces_binary hlib op x y⟩
  · cases hop
    obtain ⟨x, rfl⟩ := List.length_eq_one_iff.1 hlen
    exact ⟨rfl, _, yields_extend8.unary, .inl rfl⟩
  · cases hop
    obtain ⟨x, rfl⟩ := List.length_eq_one_iff.1 hlen
    exact ⟨rfl, _, yields_extend16.unary, .inl rfl⟩
  · cases hop

variable {parts : List Part} {m : Machine} {σ : State} {low : List Nbt}

/-- **Effects of operators.**  Where the library has been prepared, the commands of each operator
    come to their end, whatever its operands are and whatever is below them.  They leave one number
    in place of the operands, and change nothing else but registers that are lettered: no other
    value in a storage, no register of branches and memories, and no constant.  The number is the
    value of the operator; where it has none, it divides. -/
theorem operators_complete {op : NumericOp} {l : Lowered} {xs : List Int32} (ns : String)
    (h : Booted parts m) (hs : m.store.Models σ) (hop : lowerNumeric op = .ok l)
    (hlen : xs.length = l.pops.toNat)
    (hstack : σ.operands = some (entries (low ++ xs.map .int))) :
    l.pushes = 1 ∧ ∃ z, op.Gives xs z ∧ Completes m.code ns l.commands m.store
      (Touches lettered (σ.setOperands (low ++ [.int z]))) := by
  obtain ⟨hpushes, z, hreplaces, hz⟩ := replaces_of_lowerNumeric h.hasLibrary hop hlen
  exact ⟨hpushes, z, hz, hreplaces.completes h hs hstack⟩

/-- Without the sign, no number is less than the one that its sign makes the least of all. -/
theorem operators_complete_unsigned : ∃ m σ l, Booted [.library] m ∧ m.store.Models σ ∧
    σ.operands = some (entries [.int 7, .int (-1), .int 1]) ∧
    lowerNumeric (.intRel .w32 (.lt .unsigned)) = .ok l ∧
    Completes m.code "" l.commands m.store
      (Touches lettered (σ.setOperands [.int 7, .int 0])) := by
  obtain ⟨m, σ, h, hs, hstack⟩ := exists_booted [7, -1, 1]
  have hlow : σ.operands = some (entries ([.int 7] ++ [(-1 : Int32), 1].map .int)) := hstack
  have hop : lowerNumeric (.intRel .w32 (.lt .unsigned)) = .ok (lowerRel (.lt .unsigned)) := rfl
  obtain ⟨-, z, hz | ⟨hnone, -⟩, hcompletes⟩ := operators_complete "" h hs hop rfl hlow
  · have hzero : NumericOp.value? (.intRel .w32 (.lt .unsigned)) [-1, 1] = some 0 := by decide
    cases hz.symm.trans hzero
    exact ⟨m, σ, _, h, hs, hstack, hop, hcompletes⟩
  · cases hnone

end Machine

end WasmPack
