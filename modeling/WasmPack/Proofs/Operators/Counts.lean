/-
  WasmPack.Proofs.Operators.Counts

  Bit counts, and with them all operators that go by bits.

  Zeros are counted by shifting until the first one is at the end; a number
  other than zero has a one, so the loop ends before all bits are gone.  Ones are
  counted bit by bit with a weight, as bitwise operators go.
-/
import WasmPack.Proofs.Operators.Bitwise

namespace WasmPack

open Machine Compile Wasm
open Nbt (entries)

/-- What an operator that counts bits gives. -/
def Wasm.IntUnary.value : IntUnary → Int32 → Int32
  | .clz, x => Int32.ofBitVec x.toBitVec.clz
  | .ctz, x => Int32.ofBitVec x.toBitVec.ctz
  | .popcnt, x => Int32.ofBitVec x.toBitVec.cpop

namespace Machine

variable {code : Code} {ns : String} {σ : State} {x n : Int32} {i k : Nat}

theorem ofNat_toNat (v : BitVec 32) : Int32.ofNat v.toNat = Int32.ofBitVec v := by
  rw [← Int32.toBitVec_inj, Int32.toBitVec_ofNat', Int32.toBitVec_ofBitVec, BitVec.ofNat_toNat,
    BitVec.setWidth_eq]

theorem ofNat_succ : Int32.ofNat i + 1 = Int32.ofNat (i + 1) := (Int32.ofNat_add i 1).symm

theorem toBitVec_ne_zero (h : x ≠ 0) : x.toBitVec ≠ 0#32 := fun hx => h (Int32.toBitVec_inj.1 hx)

/-! ## Leading zeros -/

/-- The number of leading zeros. -/
def leading (n : Int32) : Nat := n.toBitVec.clz.toNat

/-- A number behind some doublings. -/
def doubled (n : Int32) (i : Nat) : Int32 := Int32.ofBitVec (n.toBitVec <<< i)

theorem doubled_zero : doubled x 0 = x := by
  rw [doubled, BitVec.shiftLeft_zero, Int32.ofBitVec_toBitVec]

theorem applyOp_mul_doubled : applyOp .mul (doubled x i) 2 = doubled x (i + 1) := by
  rw [doubled, applyOp_mul_two, ← BitVec.shiftLeft_add]
  rfl

/-- Leading zeros bound a number other than zero from both sides. -/
theorem leading_bounds (h : x ≠ 0) : leading x < 32 ∧ 2 ^ (31 - leading x) ≤ unsigned x ∧
    unsigned x < 2 ^ (32 - leading x) := by
  have hne := toBitVec_ne_zero h
  have hlt : x.toBitVec.clz < 32#32 := BitVec.clz_lt_iff_ne_zero.2 hne
  exact ⟨hlt, BitVec.two_pow_sub_clz_le_toNat_of_ne_zero (by decide) hne,
    BitVec.toNat_lt_two_pow_sub_clz⟩

/-- As long as there are leading zeros, doubling wraps nothing around. -/
theorem unsigned_doubled (h : x ≠ 0) (hi : i ≤ leading x) :
    unsigned (doubled x i) = unsigned x * 2 ^ i := by
  obtain ⟨hlt, -, hx⟩ := leading_bounds h
  have hpow : 2 ^ (32 - leading x) * 2 ^ i ≤ 2 ^ 32 := by
    rw [← Nat.pow_add]
    exact Nat.pow_le_pow_right (by decide) (by omega)
  have hfits : unsigned x * 2 ^ i < 2 ^ (32 - leading x) * 2 ^ i :=
    Nat.mul_lt_mul_of_pos_right hx (Nat.two_pow_pos i)
  show (x.toBitVec <<< i).toNat = _
  rw [BitVec.toNat_shiftLeft, Nat.shiftLeft_eq]
  exact Nat.mod_eq_of_lt (Nat.lt_of_lt_of_le hfits hpow)

/-- The sign is set when all leading zeros have gone. -/
theorem toInt_doubled_pos_iff (h : x ≠ 0) (hi : i ≤ leading x) :
    0 < (doubled x i).toInt ↔ i < leading x := by
  obtain ⟨hlt, hlo, hhi⟩ := leading_bounds h
  have hsign := @toInt_eq_unsigned (doubled x i)
  have hpos : 0 < unsigned x * 2 ^ i := Nat.mul_pos (unsigned_pos h) (Nat.two_pow_pos i)
  rw [unsigned_doubled h hi] at hsign
  constructor
  · intro hsigned
    apply Nat.lt_of_le_of_ne hi
    rintro rfl
    -- Once they all have gone, the highest bit is set.
    have htop : 2 ^ (31 - leading x) * 2 ^ leading x ≤ unsigned x * 2 ^ leading x :=
      Nat.mul_le_mul_right _ hlo
    rw [← Nat.pow_add, Nat.sub_add_cancel (by omega)] at htop
    have hwrap := @unsigned_lt (doubled x (leading x))
    rw [unsigned_doubled h hi] at hwrap
    rw [if_neg (by omega)] at hsign
    omega
  · intro hless
    -- As long as one is left, the highest bit is not set.
    have hfits : unsigned x * 2 ^ i < 2 ^ (32 - leading x) * 2 ^ i :=
      Nat.mul_lt_mul_of_pos_right hhi (Nat.two_pow_pos i)
    have hpow : 2 ^ (32 - leading x) * 2 ^ i ≤ 2 ^ 31 := by
      rw [← Nat.pow_add]
      exact Nat.pow_le_pow_right (by decide) (by omega)
    rw [if_pos (by omega)] at hsign
    omega

/-- From a number with leading zeros left on, they are all counted. -/
theorem computes_clzLoop (hlib : code.HasLibrary) (h : x ≠ 0) (hik : i + k + 1 = leading x)
    (hσ : Seeded σ) (ha : σ.regs .a = some (doubled x i)) (hc : σ.regs .c = some (Int32.ofNat i)) :
    Computes code ns (Library.routineCommands .clzLoop) σ fun τ =>
      Touches lettered σ τ ∧ τ.regs .c = some (Int32.ofNat (leading x)) := by
  have htwo : σ.regs (.const 2) = some 2 := hσ 2 (by decide)
  -- The induction is on the number of leading zeros that are left behind this turn.
  induction k using Nat.strongRecOn generalizing ns i σ with
  | _ k ih =>
    have hleft := contains_positive.trans (toInt_doubled_pos_iff h (i := i + 1) (by omega))
    have hturn : Touches lettered σ
        ((σ.setReg .c (Int32.ofNat (i + 1))).setReg .a (doubled x (i + 1))) := by simp [lettered]
    apply Computes.add hc
    apply Computes.op (by decide) (m := doubled x i) (n := 2) (by simp [ha]) (by simp [htwo])
    rw [applyOp_mul_doubled, ofNat_succ]
    apply Computes.ifIn hleft (by simp)
    · intro hless
      have hrest : i + 1 + (k - 1) + 1 = leading x := by omega
      apply Computes.callLast hlib
      apply (ih (k - 1) (by omega) hrest (hturn.seeded hσ) (by simp) (by simp) (by simp [htwo])).mono
      rintro τ ⟨hτ, hcount⟩
      exact ⟨hturn.trans hτ, hcount⟩
    · intro hlast
      have hall : i + 1 = leading x := by omega
      exact .nil ⟨hturn, by simp [hall]⟩

theorem yields_clz (hlib : code.HasLibrary) :
    Yields code lettered (Library.routineCommands .clz) x (IntUnary.value .clz x) := by
  intro ns σ hσ ha
  rw [IntUnary.value, ← ofNat_toNat]
  apply Computes.set
  -- Zero is told apart first, since it has no one that would end the loop.
  apply Computes.ifIn contains_exact (n := x) (by simp [ha])
  · rintro rfl
    apply Computes.set
    apply Computes.ifIn contains_positive (n := 0) (by simp [ha])
    · intro hpos
      cases hpos
    · intro _
      apply Computes.copy (n := 32) (by simp)
      exact .nil ⟨by simp [lettered], by simp⟩
  · intro hne
    have htouches : Touches lettered σ (σ.setReg .c 0) := by simp [lettered]
    have hsome := contains_positive.trans (toInt_doubled_pos_iff hne (Nat.zero_le _))
    rw [doubled_zero] at hsome
    apply Computes.ifIn hsome (by simp [ha])
    · intro hpos
      have hfirst : 0 + (leading x - 1) + 1 = leading x := by omega
      apply Computes.call hlib (computes_clzLoop hlib hne hfirst (htouches.seeded hσ)
        (by simp [ha, doubled_zero]) (by simp))
      rintro τ ⟨hτ, hcount⟩
      have hend : Touches lettered σ τ := htouches.trans hτ
      apply Computes.copy hcount
      exact .nil ⟨by simpa [lettered] using hend, by simp [leading]⟩
    -- A number that is negative has no leading zeros, and the loop is not called.
    · intro hnone
      have hzero : leading x = 0 := by omega
      apply Computes.copy (n := 0) (by simp)
      refine .nil ⟨by simp [lettered], ?_⟩
      rw [leading] at hzero
      simp [hzero]

/-! ## Trailing zeros -/

/-- The number of trailing zeros. -/
def trailing (n : Int32) : Nat := n.toBitVec.ctz.toNat

/-- The lowest one of a number other than zero stands behind the trailing zeros. -/
theorem bit_trailing (h : x ≠ 0) : trailing x < 32 ∧ bit x (trailing x) = true ∧
    ∀ i < trailing x, bit x i = false := by
  have hne := toBitVec_ne_zero h
  have hlt : x.toBitVec.ctz < 32#32 := BitVec.ctz_lt_iff_ne_zero.2 hne
  exact ⟨hlt, BitVec.getLsbD_true_ctz_of_ne_zero hne, fun _ hi => BitVec.getLsbD_false_of_lt_ctz hi⟩

theorem toInt32_true : true.toInt32 = 1 := rfl

theorem toInt32_false : false.toInt32 = 0 := rfl

/-- From any trailing zero or the lowest one on, the trailing zeros are all counted. -/
theorem computes_ctzLoop (hlib : code.HasLibrary) (h : x ≠ 0) (hik : i + k = trailing x)
    (hσ : Seeded σ) (ha : σ.regs .a = some (halved x i)) (hc : σ.regs .c = some (Int32.ofNat i)) :
    Computes code ns (Library.routineCommands .ctzLoop) σ fun τ =>
      Touches lettered σ τ ∧ τ.regs .c = some (Int32.ofNat (trailing x)) := by
  have htwo : σ.regs (.const 2) = some 2 := hσ 2 (by decide)
  obtain ⟨hlt, hone, hzeros⟩ := bit_trailing h
  -- The induction is on the number of trailing zeros that are left.
  induction k generalizing ns i σ with
  -- The lowest one is no zero, and no guard holds.
  | zero =>
    obtain rfl : i = trailing x := hik
    apply Computes.copy ha
    apply Computes.op (by decide) (m := halved x (trailing x)) (n := 2) (by simp) (by simp [htwo])
    rw [applyOp_mod_halved hlt, hone, toInt32_true]
    apply Computes.ifIn contains_exact (n := 1) (by simp) (fun h => absurd h (by decide))
    intro _
    apply Computes.ifIn contains_exact (n := 1) (by simp) (fun h => absurd h (by decide))
    intro _
    apply Computes.ifIn contains_exact (n := 1) (by simp) (fun h => absurd h (by decide))
    intro _
    exact .nil (by simp [lettered, hc])
  -- A zero is counted and taken away.
  | succ k ih =>
    apply Computes.copy ha
    apply Computes.op (by decide) (m := halved x i) (n := 2) (by simp) (by simp [htwo])
    rw [applyOp_mod_halved (by omega), hzeros i (by omega), toInt32_false]
    apply Computes.ifIn contains_exact (n := 0) (by simp) ?_ (fun h => absurd rfl h)
    intro _
    apply Computes.add (m := Int32.ofNat i) (by simp [hc])
    rw [ofNat_succ]
    apply Computes.ifIn contains_exact (n := 0) (by simp) ?_ (fun h => absurd rfl h)
    intro _
    apply Computes.op (by decide) (m := halved x i) (n := 2) (by simp [ha]) (by simp [htwo])
    rw [applyOp_div_halved]
    apply Computes.ifIn contains_exact (n := 0) (by simp) ?_ (fun h => absurd rfl h)
    intro _
    have hturn : Touches lettered σ ((((σ.setReg .e (halved x i)).setReg .e 0).setReg .c
        (Int32.ofNat (i + 1))).setReg .a (halved x (i + 1))) := by simp [lettered]
    apply Computes.callLast hlib
    apply (ih (i := i + 1) (by omega) (hturn.seeded hσ) (by simp) (by simp) (by simp [htwo])).mono
    rintro τ ⟨hτ, hcount⟩
    exact ⟨hturn.trans hτ, hcount⟩

theorem yields_ctz (hlib : code.HasLibrary) :
    Yields code lettered (Library.routineCommands .ctz) x (IntUnary.value .ctz x) := by
  intro ns σ hσ ha
  rw [IntUnary.value, ← ofNat_toNat]
  apply Computes.set
  apply Computes.ifIn contains_exact (n := x) (by simp [ha])
  · rintro rfl
    apply Computes.set
    apply Computes.unlessIn contains_exact (n := 0) (by simp [ha]) (fun h => absurd rfl h)
    intro _
    apply Computes.copy (n := 32) (by simp)
    have hall : (0#32).ctz = 32#32 := by decide +kernel
    exact .nil ⟨by simp [lettered], by simp [hall]⟩
  · intro hne
    have htouches : Touches lettered σ (σ.setReg .c 0) := by simp [lettered]
    apply Computes.unlessIn contains_exact (n := x) (by simp [ha]) ?_ (fun h => absurd h hne)
    intro _
    have hloop := @computes_ctzLoop code sharedNamespace (σ.setReg .c 0) x 0 (trailing x) hlib hne
      (Nat.zero_add _) (htouches.seeded hσ) (by simp [ha, halved_zero]) (by simp)
    apply Computes.call hlib hloop
    rintro τ ⟨hτ, hcount⟩
    apply Computes.copy hcount
    have hend : Touches lettered σ τ := htouches.trans hτ
    exact .nil ⟨by simpa [lettered] using hend, by simp [trailing]⟩

/-! ## Ones -/

/-- The number of ones among the lowest bits. -/
def ones (n : Int32) (i : Nat) : Nat := n.toBitVec.cpopNatRec i 0

theorem ones_succ : ones x (i + 1) = ones x i + (bit x i).toNat := by
  rw [ones, BitVec.cpopNatRec_succ, BitVec.cpopNatRec_eq, Nat.zero_add]
  rfl

/-- What registers hold before the turn for a bit. -/
structure CountAt (x : Int32) (i : Nat) (σ : State) : Prop where
  a : σ.regs .a = some (halved x i)
  c : σ.regs .c = some (Int32.ofNat (ones x i))
  d : ∃ d, σ.regs .d = some d ∧ unsigned d = 2 ^ i % 2 ^ 32

/-- The commands of a turn but the last one, which goes on with the next turn. -/
def popcntTurn : List Command :=
  [.copy .e .a,
    .operation .e .mod (.const 2),
    .operation .c .add .e,
    .operation .a .div (.const 2),
    .operation .d .mul (.const 2)]

/-- A turn takes what registers hold to the next bit. -/
theorem computes_popcntTurn (hi : i < 32) (hσ : Seeded σ) (h : CountAt x i σ) :
    Computes code ns popcntTurn σ fun τ => Touches lettered σ τ ∧ CountAt x (i + 1) τ := by
  have htwo : σ.regs (.const 2) = some 2 := hσ 2 (by decide)
  have ha := h.a
  have hc := h.c
  obtain ⟨d, hd, hweight⟩ := h.d
  have hsum : Int32.ofNat (ones x i) + (bit x i).toInt32 = Int32.ofNat (ones x (i + 1)) := by
    have hbit : (bit x i).toInt32 = Int32.ofNat (bit x i).toNat := by cases bit x i <;> rfl
    rw [ones_succ, Int32.ofNat_add, hbit]
  apply Computes.copy ha
  apply Computes.op (by decide) (m := halved x i) (n := 2) (by simp) (by simp [htwo])
  rw [applyOp_mod_halved hi]
  apply Computes.op (by decide) (m := Int32.ofNat (ones x i)) (n := (bit x i).toInt32)
    (by simp [hc]) (by simp)
  rw [applyOp_add, hsum]
  apply Computes.op (by decide) (m := halved x i) (n := 2) (by simp [ha]) (by simp [htwo])
  rw [applyOp_div_halved]
  apply Computes.op (by decide) (m := d) (n := 2) (by simp [hd]) (by simp [htwo])
  have hnext : unsigned (d * 2) = 2 ^ (i + 1) % 2 ^ 32 := by
    rw [unsigned_mul, hweight, Nat.pow_succ, Nat.mod_mul_mod]
    rfl
  exact .nil ⟨by simp [lettered], ⟨by simp, by simp, ⟨d * 2, by simp, hnext⟩⟩⟩

theorem yields_popcnt (hlib : code.HasLibrary) :
    Yields code lettered (Library.routineCommands .popcnt) x (IntUnary.value .popcnt x) := by
  intro ns σ hσ ha
  rw [IntUnary.value, ← ofNat_toNat, BitVec.toNat_cpop]
  apply computes_collected hlib
  intro υ hυ hc hd
  have htouches : Touches lettered σ υ := hυ.mono (by simp [lettered])
  have hx : υ.regs .a = some (halved x 0) := by rw [halved_zero, hυ.read (by simp) ha]
  have hfirst : CountAt x 0 υ := ⟨hx, hc, ⟨1, hd, rfl⟩⟩
  apply (computes_weightLoop (k := 31) (T := CountAt x) hlib rfl CountAt.d computes_popcntTurn rfl
    (htouches.seeded hσ) hfirst).mono
  rintro τ ⟨hτ, hall⟩
  exact ⟨hτ, hall.c⟩

/-! ## The operators -/

variable {parts : List Part} {m : Machine} {low : List Nbt} {y : Int32}

/-- A bit count yields its value. -/
theorem yields_count (hlib : code.HasLibrary) (op : IntUnary) :
    Yields code lettered [.call (.routine (countRoutine op))] x (op.value x) := by
  cases op with
  | clz => exact (yields_clz hlib).call hlib
  | ctz => exact (yields_ctz hlib).call hlib
  | popcnt => exact (yields_popcnt hlib).call hlib

theorem implements_bitwise {op : IntBinary} (hlib : code.HasLibrary)
    (hop : op = .and ∨ op = .or ∨ op = .xor) : Implements code (binaryBody op) op := by
  intro x y
  obtain rfl | rfl | rfl := hop
  · exact ⟨_, (turns_and hlib).call hlib, fun _ => Option.some.inj⟩
  · exact ⟨_, (turns_or hlib).call hlib, fun _ => Option.some.inj⟩
  · exact ⟨_, (turns_xor hlib).call hlib, fun _ => Option.some.inj⟩

theorem exists_value_of_bitwise {op : IntBinary} (hop : op = .and ∨ op = .or ∨ op = .xor) :
    ∃ z, op.value? x y = some z := by
  obtain rfl | rfl | rfl := hop <;> exact ⟨_, rfl⟩

/-- What bit counts are for zero. -/
theorem value_zero : IntUnary.value .clz 0 = 32 ∧ IntUnary.value .ctz 0 = 32 ∧
    IntUnary.value .popcnt 0 = 0 := by decide +kernel

/-- **Bits.**  Where the library has been prepared, the commands of each bitwise operator come to
    their end with its value in place of the operands, and those of each bit count with its value in
    place of the operand, whatever the numbers are and whatever is below them.  Zero has 32 zeros
    before its first one and behind its last one, and no ones. -/
theorem bits_complete (ns : String) (x y : Int32) (h : Booted parts m)
    (hs : m.store.Models σ) :
    (∀ op : IntBinary, (op = .and ∨ op = .or ∨ op = .xor) →
      σ.operands = some (entries (low ++ [.int x, .int y])) →
      ∃ l z, lowerNumeric (.intBinary .w32 op) = .ok l ∧ op.value? x y = some z ∧
        Completes m.code ns l.commands m.store fun τ =>
          τ.operands = some (entries (low ++ [.int z]))) ∧
    (∀ op : IntUnary, σ.operands = some (entries (low ++ [.int x])) →
      ∃ l, lowerNumeric (.intUnary .w32 op) = .ok l ∧
        Completes m.code ns l.commands m.store fun τ =>
          τ.operands = some (entries (low ++ [.int (op.value x)]))) ∧
    IntUnary.value .clz 0 = 32 ∧ IntUnary.value .ctz 0 = 32 ∧ IntUnary.value .popcnt 0 = 0 := by
  refine ⟨?bitwise, ?count, value_zero⟩
  case bitwise =>
    intro op hop hstack
    obtain ⟨z, hz⟩ := exists_value_of_bitwise hop
    obtain ⟨l, hl, hcompletes⟩ := (implements_bitwise h.hasLibrary hop).completes h hs hstack hz
    exact ⟨l, z, hl, hz, hcompletes.operands⟩
  case count =>
    intro op hstack
    exact ⟨_, rfl, ((yields_count h.hasLibrary op).unary.completes h hs hstack).operands⟩

/-- The lowest bit of a number that is negative, and the ones of the lowest number. -/
theorem bits_complete_negative :
    (∃ m l, Booted [.library] m ∧
      Holds (fun σ => σ.operands = some (entries [.int 7, .int (-6), .int 3])) m.store ∧
      lowerNumeric (.intBinary .w32 .xor) = .ok l ∧
      Completes m.code "" l.commands m.store fun τ =>
        τ.operands = some (entries [.int 7, .int (-7)])) ∧
    ∃ m l, Booted [.library] m ∧
      Holds (fun σ => σ.operands = some (entries [.int 7, .int (-2147483648)])) m.store ∧
      lowerNumeric (.intUnary .w32 .ctz) = .ok l ∧
      Completes m.code "" l.commands m.store fun τ =>
        τ.operands = some (entries [.int 7, .int 31]) := by
  constructor
  · obtain ⟨m, σ, h, hs, hstack⟩ := exists_booted [7, -6, 3]
    have hlow : σ.operands = some (entries ([.int 7] ++ [.int (-6), .int 3])) := hstack
    obtain ⟨hbitwise, -⟩ := @bits_complete σ [.library] m [.int 7] "" (-6) 3 h hs
    obtain ⟨l, z, hl, hz, hcompletes⟩ := hbitwise .xor (.inr (.inr rfl)) hlow
    have hvalue : IntBinary.value? .xor (-6) 3 = some (-7) := by decide
    cases hz.symm.trans hvalue
    exact ⟨m, l, h, ⟨σ, hs, hstack⟩, hl, hcompletes⟩
  · obtain ⟨m, σ, h, hs, hstack⟩ := exists_booted [7, -2147483648]
    have hlow : σ.operands = some (entries ([.int 7] ++ [.int (-2147483648)])) := hstack
    obtain ⟨-, hcount, -⟩ := @bits_complete σ [.library] m [.int 7] "" (-2147483648) 0 h hs
    obtain ⟨l, hl, hcompletes⟩ := hcount .ctz hlow
    have hvalue : IntUnary.value .ctz (-2147483648) = 31 := by decide +kernel
    rw [hvalue] at hcompletes
    exact ⟨m, l, h, ⟨σ, hs, hstack⟩, hl, hcompletes⟩

end Machine

end WasmPack
