/-
  WasmPack.Proofs.Operators.Integers

  Numbers of 32 bits read without a sign, next to what registers do with them:
  sums, differences and products wrap around in both readings alike, and
  division on registers rounds down in the reading with a sign.
-/
import Mathlib.Algebra.Ring.Int.Defs
import WasmPack.Machine.Arithmetic
import WasmPack.Proofs.State.Lists

namespace WasmPack

open Machine

variable {m n x y : Int32} {i : Int}

/-! ## Numbers without a sign -/

/-- The number that the bits spell without a sign. -/
def unsigned (n : Int32) : Nat := n.toUInt32.toNat

theorem unsigned_lt : unsigned n < 2 ^ 32 := n.toUInt32.toNat_lt

theorem unsigned_inj : unsigned m = unsigned n ↔ m = n := by
  constructor
  · intro h
    have hbits : m.toUInt32 = n.toUInt32 := UInt32.toNat_inj.1 h
    rw [← m.toInt32_toUInt32, hbits, n.toInt32_toUInt32]
  · rintro rfl
    rfl

theorem unsigned_toInt32 (u : UInt32) : unsigned u.toInt32 = u.toNat := rfl

/-- The upper half of the range is where the sign is set. -/
theorem toInt_eq_unsigned : n.toInt = if unsigned n < 2 ^ 31 then (unsigned n : Int)
    else unsigned n - 2 ^ 32 := by
  have h := toInt_toInt32 n.toUInt32
  rwa [Int32.toInt32_toUInt32] at h

theorem unsigned_ofInt : (unsigned (Int32.ofInt i) : Int) = i % 2 ^ 32 := by
  show (((BitVec.ofInt 32 i).toNat : Nat) : Int) = _
  rw [BitVec.toNat_ofInt]
  omega

theorem unsigned_add : unsigned (m + n) = (unsigned m + unsigned n) % 2 ^ 32 :=
  BitVec.toNat_add m.toBitVec n.toBitVec

theorem unsigned_sub : unsigned (m - n) = (unsigned m + (2 ^ 32 - unsigned n)) % 2 ^ 32 := by
  have h := BitVec.toNat_sub m.toBitVec n.toBitVec
  rw [Nat.add_comm] at h
  exact h

theorem unsigned_mul : unsigned (m * n) = unsigned m * unsigned n % 2 ^ 32 :=
  BitVec.toNat_mul m.toBitVec n.toBitVec

theorem unsigned_minValue : unsigned Int32.minValue = 2 ^ 31 := rfl

theorem unsigned_pos (h : n ≠ 0) : 0 < unsigned n :=
  Nat.pos_of_ne_zero fun hn => h (unsigned_inj.1 hn)

theorem eq_toInt32_of_unsigned {u : UInt32} (h : unsigned n = u.toNat) : n = u.toInt32 :=
  unsigned_inj.1 (h.trans (unsigned_toInt32 u).symm)

/-- Moving by half the range takes the order without a sign to the one with a sign. -/
theorem toInt_biased : (n + Int32.minValue).toInt = (unsigned n : Int) - 2 ^ 31 := by
  have hlt := @unsigned_lt n
  rw [toInt_eq_unsigned, unsigned_add, unsigned_minValue]
  split <;> omega

/-! ## Operations on registers -/

@[simp] theorem applyOp_add : applyOp .add x y = x + y := rfl

@[simp] theorem applyOp_sub : applyOp .sub x y = x - y := rfl

@[simp] theorem applyOp_mul : applyOp .mul x y = x * y := rfl

/-! ## Division on registers -/

theorem applyOp_div (h : y ≠ 0) : applyOp .div x y = Int32.ofInt (x.toInt.fdiv y.toInt) := by
  show (floorDiv x y).getD x = _
  rw [floorDiv, if_neg h, Option.getD_some]

theorem applyOp_mod (h : y ≠ 0) : applyOp .mod x y = Int32.ofInt (x.toInt.fmod y.toInt) := by
  show (floorMod x y).getD x = _
  rw [floorMod, if_neg h, Option.getD_some]

theorem toInt_ne_zero (h : y ≠ 0) : y.toInt ≠ 0 := fun hy => h (Int32.toInt_inj.1 hy)

/-- What is left behind a quotient that is rounded down has the sign of the divisor. -/
theorem fmod_bounds {a b : Int} (h : b ≠ 0) : b * a.fdiv b + a.fmod b = a ∧
    (0 < b ∧ 0 ≤ a.fmod b ∧ a.fmod b < b ∨ b < 0 ∧ b < a.fmod b ∧ a.fmod b ≤ 0) := by
  refine ⟨Int.mul_fdiv_add_fmod a b, ?_⟩
  rcases Int.lt_or_gt_of_ne h with hneg | hpos
  · exact .inr ⟨hneg, ((Int.fdiv_fmod_unique' hneg).1 ⟨rfl, rfl⟩).2⟩
  · exact .inl ⟨hpos, ((Int.fdiv_fmod_unique hpos).1 ⟨rfl, rfl⟩).2⟩

/-- A remainder is a number of 32 bits. -/
theorem toInt_applyOp_mod (h : y ≠ 0) : (applyOp .mod x y).toInt = x.toInt.fmod y.toInt := by
  have hlo := y.le_toInt
  have hhi := y.toInt_lt
  obtain ⟨-, hrem⟩ := fmod_bounds (a := x.toInt) (toInt_ne_zero h)
  rw [applyOp_mod h]
  exact Int32.toInt_ofInt_of_le (by omega) (by omega)

/-- So is a quotient, but for that of the least number by the greatest negative one. -/
theorem toInt_applyOp_div (h : y ≠ 0) (hover : ¬ (x = Int32.minValue ∧ y = -1)) :
    (applyOp .div x y).toInt = x.toInt.fdiv y.toInt := by
  have hlo := x.le_toInt
  have hhi := x.toInt_lt
  have habs := Int.natAbs_fdiv_le_natAbs x.toInt y.toInt
  rw [applyOp_div h]
  by_cases hq : x.toInt.fdiv y.toInt = 2 ^ 31
  · -- Only the least number has such a quotient, and only where it is negated.
    obtain ⟨hmul, hrem⟩ := fmod_bounds (a := x.toInt) (toInt_ne_zero h)
    rw [hq] at hmul
    have hx : x.toInt = Int32.minValue.toInt := by
      rw [Int32.toInt_minValue]
      omega
    have hy : y.toInt = (-1 : Int32).toInt := by
      show y.toInt = -1
      omega
    exact absurd ⟨Int32.toInt_inj.1 hx, Int32.toInt_inj.1 hy⟩ hover
  · exact Int32.toInt_ofInt_of_le (by omega) (by omega)

theorem toInt_of_unsigned_lt (h : unsigned n < 2 ^ 31) : n.toInt = unsigned n := by
  rw [toInt_eq_unsigned, if_pos h]

/-- In the lower half of the range both readings are divided alike. -/
theorem unsigned_applyOp_div (hx : unsigned x < 2 ^ 31) (hy : unsigned y < 2 ^ 31) (h : y ≠ 0) :
    unsigned (applyOp .div x y) = unsigned x / unsigned y := by
  have hle : unsigned x / unsigned y ≤ unsigned x := Nat.div_le_self _ _
  have hdiv : (unsigned (applyOp .div x y) : Int) = ((unsigned x / unsigned y : Nat) : Int) := by
    rw [applyOp_div h, unsigned_ofInt, toInt_of_unsigned_lt hx, toInt_of_unsigned_lt hy,
      Int.fdiv_eq_ediv_of_nonneg _ (Int.natCast_nonneg _), ← Int.natCast_ediv]
    generalize unsigned x / unsigned y = q at hle
    omega
  exact Int.natCast_inj.1 hdiv

theorem unsigned_applyOp_mod (hx : unsigned x < 2 ^ 31) (hy : unsigned y < 2 ^ 31) (h : y ≠ 0) :
    unsigned (applyOp .mod x y) = unsigned x % unsigned y := by
  have hle : unsigned x % unsigned y ≤ unsigned x := Nat.mod_le _ _
  have hmod : (unsigned (applyOp .mod x y) : Int) = ((unsigned x % unsigned y : Nat) : Int) := by
    rw [applyOp_mod h, unsigned_ofInt, toInt_of_unsigned_lt hx, toInt_of_unsigned_lt hy,
      Int.fmod_eq_emod_of_nonneg _ (Int.natCast_nonneg _), ← Int.natCast_emod]
    omega
  exact Int.natCast_inj.1 hmod

/-- Halving keeps the sign, which half the range takes away. -/
theorem unsigned_halved (hx : x.toInt < 0) :
    unsigned (applyOp .div x 2 + Int32.minValue) = unsigned x / 2 := by
  have hlt := @unsigned_lt x
  have hhigh : x.toInt = (unsigned x : Int) - 2 ^ 32 := by
    rw [toInt_eq_unsigned] at hx ⊢
    split at hx
    · omega
    · rw [if_neg ‹_›]
  have htwo : (2 : Int32).toInt = 2 := rfl
  have hdiv : (unsigned (applyOp .div x 2) : Int) = unsigned x / 2 + 2 ^ 31 := by
    rw [applyOp_div (by decide), unsigned_ofInt, htwo, Int.fdiv_eq_ediv_of_nonneg _ (by decide),
      hhigh]
    omega
  rw [unsigned_add, unsigned_minValue]
  omega

/-- The lowest bit is the same in both readings. -/
theorem unsigned_applyOp_mod_two : unsigned (applyOp .mod x 2) = unsigned x % 2 := by
  have htwo : (2 : Int32).toInt = 2 := rfl
  have hx := @toInt_eq_unsigned x
  have hmod : (unsigned (applyOp .mod x 2) : Int) = unsigned x % 2 := by
    rw [applyOp_mod (by decide), unsigned_ofInt, htwo, Int.fmod_eq_emod_of_nonneg _ (by decide)]
    split at hx <;> omega
  omega

/-! ## Doubling and halving -/

/-- Doubling is a shift to the left. -/
theorem applyOp_mul_two (v : BitVec 32) :
    applyOp .mul (Int32.ofBitVec v) 2 = Int32.ofBitVec (v <<< 1) := by
  rw [applyOp_mul, ← unsigned_inj, unsigned_mul]
  show v.toNat * 2 % 2 ^ 32 = (v <<< 1).toNat
  rw [BitVec.toNat_shiftLeft, Nat.shiftLeft_eq]

/-- Halving is a shift to the right that keeps the sign. -/
theorem applyOp_div_two (v : BitVec 32) :
    applyOp .div (Int32.ofBitVec v) 2 = Int32.ofBitVec (v.sshiftRight 1) := by
  have htwo : (2 : Int32).toInt = 2 := rfl
  rw [← Int32.toInt_inj, toInt_applyOp_div (by decide) (by rintro ⟨-, h⟩; cases h), htwo,
    Int32.toInt_ofBitVec, Int32.toInt_ofBitVec, BitVec.toInt_sshiftRight,
    Int.fdiv_eq_ediv_of_nonneg _ (by decide), Int.shiftRight_eq_div_pow]
  rfl

/-- The remainder by two is the lowest bit. -/
theorem applyOp_mod_two (v : BitVec 32) :
    applyOp .mod (Int32.ofBitVec v) 2 = (v.getLsbD 0).toInt32 := by
  have hbit : (v.getLsbD 0).toNat = v.toNat % 2 := by
    have h := Nat.toNat_testBit v.toNat 0
    rwa [Nat.pow_zero, Nat.div_one] at h
  have hbool : ∀ b : Bool, unsigned b.toInt32 = b.toNat := by decide
  rw [← unsigned_inj, unsigned_applyOp_mod_two, hbool, hbit]
  rfl

/-! ## Rounding toward zero -/

variable {a b : Int}

/-- The quotient rounded down is off by one where it is negative and something remains. -/
theorem tdiv_eq_fdiv_of_ne_zero (h : b ≠ 0) :
    a.tdiv b = if a.fmod b ≠ 0 ∧ a.fdiv b ≤ -1 then a.fdiv b + 1 else a.fdiv b := by
  obtain ⟨hmul, hrem⟩ := fmod_bounds (a := a) h
  have hdvd : b ∣ a ↔ a.fmod b = 0 := Int.dvd_iff_fmod_eq_zero
  rw [Int.tdiv_eq_fdiv]
  by_cases hzero : a.fmod b = 0
  · rw [if_pos (hdvd.2 hzero), if_neg (fun h => h.1 hzero), Int.add_zero]
  · rw [if_neg (fun h => hzero (hdvd.1 h))]
    rcases hrem with ⟨hb, hrem⟩ | ⟨hb, hrem⟩
    · rw [if_pos (Int.le_of_lt hb), if_pos (Int.le_of_lt hb), Int.sign_eq_one_of_pos hb]
      by_cases ha : 0 ≤ a
      · have hq := Int.fdiv_nonneg ha (Int.le_of_lt hb)
        rw [if_pos ha, if_neg (by omega), Int.add_zero]
      · have hq := Int.fdiv_neg_of_neg_of_pos (Int.not_le.1 ha) hb
        rw [if_neg ha, if_pos ⟨hzero, by omega⟩]
    · rw [if_neg (Int.not_le.2 hb), if_neg (Int.not_le.2 hb), Int.sign_eq_neg_one_of_neg hb]
      by_cases ha : 0 ≤ a
      · have hq := Int.fdiv_nonpos_of_nonneg_of_nonpos ha (Int.le_of_lt hb)
        have hne : a.fdiv b ≠ 0 := by
          intro hq
          rw [hq] at hmul
          omega
        rw [if_pos ha, if_pos ⟨hzero, by omega⟩]
      · have hq := Int.fdiv_nonneg_of_nonpos_of_nonpos (Int.le_of_lt (Int.not_le.1 ha))
          (Int.le_of_lt hb)
        rw [if_neg ha, if_neg (by omega)]
        omega

/-- Where the quotient moves up by one, the remainder moves down by the divisor. -/
theorem tmod_eq_fmod_of_ne_zero (h : b ≠ 0) :
    a.tmod b = if a.fmod b ≠ 0 ∧ a.fdiv b ≤ -1 then a.fmod b - b else a.fmod b := by
  have hmul := Int.mul_fdiv_add_fmod a b
  rw [Int.tmod_def, tdiv_eq_fdiv_of_ne_zero h]
  split
  · rw [Int.mul_add]
    omega
  · omega

end WasmPack
