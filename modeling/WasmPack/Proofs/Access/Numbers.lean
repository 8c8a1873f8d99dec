/-
  WasmPack.Proofs.Access.Numbers

  Numbers of 32 bits as bytes, the lowest first.

  A store takes a number apart by dividing with rounding down, which keeps the
  bits of negative numbers in their places.  A load multiplies each byte by its
  weight and adds up what comes of it; only the last byte of a signed load counts
  with its sign.
-/
import Mathlib.Tactic.IntervalCases
import WasmPack.Binary.Instr
import WasmPack.Compile.Access
import WasmPack.Machine.Arithmetic
import WasmPack.Proofs.State.Lists

namespace WasmPack

open Compile Machine Wasm Binary

variable {v : Int32} {k width : Nat} {sign : Signedness} {b : UInt8} {bytes : List UInt8}

/-! ## Signed bytes -/

/-- A byte of the upper half of the range counts as negative where signed bytes are. -/
theorem toInt_toInt8 (b : UInt8) :
    b.toInt8.toInt = if b.toNat < 2 ^ 7 then (b.toNat : Int) else b.toNat - 2 ^ 8 := by
  show b.toBitVec.toInt = _
  rw [BitVec.toInt_eq_toNat_cond]
  have : b.toBitVec.toNat = b.toNat := rfl
  rw [this]
  split <;> split <;> first | rfl | omega

theorem toNat_toUInt8_ofInt (i : Int) : ((Int8.ofInt i).toUInt8.toNat : Int) = i % 256 := by
  show (((BitVec.ofInt 8 i).toNat : Nat) : Int) = _
  rw [BitVec.toNat_ofInt]
  omega

theorem toInt32_toInt8 (b : UInt8) : b.toInt8.toInt32 = Int32.ofInt b.toInt8.toInt := by
  rw [← Int8.toInt_toInt32, Int32.ofInt_toInt]

theorem toInt32_le_neg_one : b.toInt8.toInt32 ≤ -1 ↔ 2 ^ 7 ≤ b.toNat := by
  have hlt := b.toNat_lt
  have hone : (-1 : Int32).toInt = -1 := rfl
  rw [Int32.le_iff_toInt_le, Int8.toInt_toInt32, toInt_toInt8, hone]
  split <;> omega

/-- Adding 256 to a negative signed byte gives the byte. -/
theorem ofNat_eq_ite : Int32.ofNat b.toNat =
    if b.toInt8.toInt32 ≤ -1 then b.toInt8.toInt32 + 256 else b.toInt8.toInt32 := by
  have h256 : (256 : Int32) = Int32.ofInt (2 ^ 8) := rfl
  rw [toInt32_toInt8, toInt_toInt8, ← Int32.ofInt_eq_ofNat]
  by_cases hb : b.toNat < 2 ^ 7
  · have hle := mt toInt32_le_neg_one.1 (Nat.not_le.2 hb)
    rw [toInt32_toInt8, toInt_toInt8, if_pos hb] at hle
    rw [if_pos hb, if_neg hle]
  · have hle := toInt32_le_neg_one.2 (Nat.not_lt.1 hb)
    rw [toInt32_toInt8, toInt_toInt8, if_neg hb] at hle
    rw [if_neg hb, if_pos hle, h256, ← Int32.ofInt_add, Int.sub_add_cancel]

/-! ## Taking numbers apart -/

/-- The bits from `8 * k` to `8 * k + 7` of a 32-bit integer. -/
def byteOf (v : Int32) (k : Nat) : UInt8 := UInt8.ofNat (v.toUInt32.toNat >>> (8 * k))

/-- What is left of a number when its lowest bytes are dropped. -/
def shifted (v : Int32) (k : Nat) : Int32 := Int32.ofInt (v.toInt / 256 ^ k)

theorem shifted_zero : shifted v 0 = v := by
  rw [shifted, Int.pow_zero, Int.ediv_one, Int32.ofInt_toInt]

theorem toInt_shifted : (shifted v k).toInt = v.toInt / 256 ^ k := by
  have hlo := v.le_toInt
  have hhi := v.toInt_lt
  have hpos : (0 : Int) < 256 ^ k := Int.pow_pos (by decide)
  have hge : ∀ c : Int, 0 ≤ c → c ≤ c * 256 ^ k := fun c hc => by
    have := Int.mul_le_mul_of_nonneg_left (Int.add_one_le_of_lt hpos) hc
    omega
  refine Int32.toInt_ofInt_of_le ?_ ?_
  · have := hge (2 ^ 31) (by decide)
    exact Int.le_ediv_of_mul_le hpos (by omega)
  · have := hge (2 ^ 31) (by decide)
    exact Int.ediv_lt_of_lt_mul hpos (by omega)

/-- Dividing by 256 drops a byte. -/
theorem applyOp_div_shifted : applyOp .div (shifted v k) 256 = shifted v (k + 1) := by
  have hne : (256 : Int32) ≠ 0 := by decide
  have hint : (256 : Int32).toInt = 256 := rfl
  show (floorDiv (shifted v k) 256).getD (shifted v k) = _
  rw [floorDiv, if_neg hne, Option.getD_some, hint, toInt_shifted,
    Int.fdiv_eq_ediv_of_nonneg _ (by decide), Int.ediv_ediv_of_nonneg (Int.pow_nonneg (by decide)),
    ← Int.pow_succ, shifted]

/-- The remainder by 256 has the bits of the lowest byte. -/
theorem toUInt8_applyOp_mod_shifted (hk : k < 4) :
    (applyOp .mod (shifted v k) 256).toInt8.toUInt8 = byteOf v k := by
  have hne : (256 : Int32) ≠ 0 := by decide
  have hint : (256 : Int32).toInt = 256 := rfl
  have hv : v.toInt = if v.toUInt32.toNat < 2 ^ 31 then (v.toUInt32.toNat : Int)
      else v.toUInt32.toNat - 2 ^ 32 := by
    rw [← toInt_toInt32, Int32.toInt32_toUInt32]
  show ((floorMod (shifted v k) 256).getD (shifted v k)).toInt8.toUInt8 = _
  rw [floorMod, if_neg hne, Option.getD_some, hint, toInt_shifted,
    Int.fmod_eq_emod_of_nonneg _ (by decide), Int32.toInt8_ofInt, ← UInt8.toNat_inj,
    ← Int.natCast_inj, toNat_toUInt8_ofInt, byteOf, UInt8.toNat_ofNat', Nat.shiftRight_eq_div_pow]
  interval_cases k <;> split at hv <;> omega

/-! ## Putting numbers together -/

namespace Binary

theorem littleEndian_append_singleton :
    littleEndian (bytes ++ [b]) = littleEndian bytes + 256 ^ bytes.length * b.toNat := by
  induction bytes with
  | nil => simp [littleEndian]
  | cons a bytes ih =>
    rw [List.cons_append, littleEndian, ih, littleEndian, List.length_cons, Nat.mul_add,
      ← Nat.mul_assoc, ← Nat.pow_succ', Nat.add_assoc]

theorem littleEndian_lt (bytes : List UInt8) : littleEndian bytes < 256 ^ bytes.length := by
  induction bytes with
  | nil => simp [littleEndian]
  | cons a bytes ih =>
    have ha := a.toNat_lt
    rw [littleEndian, List.length_cons, Nat.pow_succ']
    omega

end Binary

/-- The last byte of a signed number brings its sign. -/
theorem bmod_littleEndian :
    (littleEndian (bytes ++ [b]) : Int).bmod (256 ^ (bytes.length + 1)) =
      littleEndian bytes + b.toInt8.toInt * 256 ^ bytes.length := by
  have hlow : (littleEndian bytes : Int) < 256 ^ bytes.length := by
    exact_mod_cast littleEndian_lt bytes
  have hb := b.toNat_lt
  have hall : ((256 ^ (bytes.length + 1) : Nat) : Int) = 256 * 256 ^ bytes.length := by
    rw [Nat.pow_succ', Int.natCast_mul, Int.natCast_pow]
    rfl
  have hsign : -128 ≤ b.toInt8.toInt ∧ b.toInt8.toInt ≤ 127 := by
    rw [toInt_toInt8]
    split <;> omega
  rw [Int.bmod_eq_iff (Nat.pow_pos (by decide)), hall, littleEndian_append_singleton]
  push_cast
  have hpos : (0 : Int) < 256 ^ bytes.length := Int.pow_pos (by decide)
  generalize (256 : Int) ^ bytes.length = weight at *
  have hle := Int.mul_le_mul_of_nonneg_right hsign.1 hpos.le
  have hge := Int.mul_le_mul_of_nonneg_right hsign.2 hpos.le
  refine ⟨by omega, by omega, ?_⟩
  rw [Int.add_sub_add_left, Int.mul_comm weight, ← Int.sub_mul]
  refine Int.mul_dvd_mul ?_ (Int.dvd_refl _)
  rw [toInt_toInt8]
  split <;> omega

/-- What a byte counts for in a load: the last byte of a signed load counts with its sign. -/
def byteValue (width : Nat) (sign : Signedness) (k : Nat) (b : UInt8) : Int32 :=
  if k + 1 = width ∧ sign = .signed then b.toInt8.toInt32 else Int32.ofNat b.toNat

/-- What the first bytes of a load make together. -/
def gathered (width : Nat) (sign : Signedness) (bytes : List UInt8) : Int32 :=
  if bytes.length = width ∧ sign = .signed then
    Int32.ofInt ((littleEndian bytes : Int).bmod (256 ^ width))
  else Int32.ofNat (littleEndian bytes)

theorem gathered_signed (h : bytes.length = width) :
    gathered width .signed bytes = Int32.ofInt ((littleEndian bytes : Int).bmod (256 ^ width)) :=
  if_pos ⟨h, rfl⟩

theorem gathered_unsigned : gathered width .unsigned bytes = Int32.ofNat (littleEndian bytes) :=
  if_neg fun h => nomatch h.2

/-- One more byte counts as much as its weight says. -/
theorem gathered_append_singleton (h : bytes.length < width) :
    gathered width sign (bytes ++ [b]) = gathered width sign bytes +
      byteValue width sign bytes.length b * byteWeight bytes.length := by
  have hweight : byteWeight bytes.length = Int32.ofInt (256 ^ bytes.length) := by
    rw [byteWeight, ← Int32.ofInt_eq_ofNat, Nat.one_shiftLeft, Nat.pow_mul, Int.natCast_pow]
    rfl
  have hlen : (bytes ++ [b]).length = bytes.length + 1 := by simp
  have hfirst : gathered width sign bytes = Int32.ofInt (littleEndian bytes) := by
    rw [gathered, if_neg fun hw => by omega, Int32.ofInt_eq_ofNat]
  rw [gathered, byteValue, hfirst, hweight, hlen]
  by_cases hlast : bytes.length + 1 = width ∧ sign = .signed
  · rw [if_pos hlast, if_pos hlast, ← hlast.1, bmod_littleEndian, toInt32_toInt8, Int32.ofInt_add,
      Int32.ofInt_mul]
  · rw [if_neg hlast, if_neg hlast, ← Int32.ofInt_eq_ofNat, ← Int32.ofInt_eq_ofNat,
      ← Int32.ofInt_mul, ← Int32.ofInt_add, littleEndian_append_singleton, Nat.mul_comm]
    push_cast
    rfl

end WasmPack
