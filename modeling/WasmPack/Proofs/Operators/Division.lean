/-
  WasmPack.Proofs.Operators.Division

  Division, which rounds toward zero with a sign and works in the whole range
  without one.

  Registers divide downward.  With a sign, quotient and remainder are corrected
  where the quotient is negative and something remains.  Without a sign, a
  divisor in the upper half of the range goes into the dividend at most once, and
  a dividend in the upper half is divided without its lowest bit first.
-/
import WasmPack.Proofs.Operators.Values

namespace WasmPack.Machine

open Compile Wasm
open Nbt (entries)

variable {code : Code} {ns : String} {cs : List Command} {c : Command} {σ : State}
  {Q : State → Prop} {x y m n : Int32}

/-! ## Division with a sign -/

/-- Something remains of a quotient that is negative. -/
def Corrected (x y : Int32) : Prop := applyOp .mod x y ≠ 0 ∧ (applyOp .div x y).toInt < 0

instance : Decidable (Corrected x y) := instDecidableAnd

theorem turns_divS : Turns code lettered Library.divS x y
    (if Corrected x y then applyOp .div x y + 1 else applyOp .div x y) := by
  intro ns σ _ ha hb
  apply Computes.copy ha
  apply Computes.op (by decide) (m := x) (n := y) (by simp) (by simp [hb])
  apply Computes.op (by decide) (m := x) (n := y) (by simp [ha]) (by simp [hb])
  apply Computes.unlessIn contains_exact (n := applyOp .mod x y) (by simp)
  · intro hrem
    apply Computes.ifIn contains_negative (n := applyOp .div x y) (by simp)
    · intro hneg
      apply Computes.add (m := applyOp .div x y) (by simp)
      exact .nil (by simp [lettered, Corrected, hrem, hneg])
    · intro hneg
      exact .nil (by simp [lettered, Corrected, hneg])
  · intro hrem
    exact .nil (by simp [lettered, Corrected, hrem])

theorem turns_remS : Turns code lettered Library.remS x y
    (if Corrected x y then applyOp .mod x y - y else applyOp .mod x y) := by
  intro ns σ _ ha hb
  apply Computes.copy ha
  apply Computes.op (by decide) (m := x) (n := y) (by simp) (by simp [hb])
  apply Computes.copy (n := x) (by simp [ha])
  apply Computes.op (by decide) (m := x) (n := y) (by simp) (by simp [hb])
  apply Computes.unlessIn contains_exact (n := applyOp .mod x y) (by simp)
  · intro hrem
    apply Computes.ifIn contains_negative (n := applyOp .div x y) (by simp)
    · intro hneg
      apply Computes.op (by decide) (m := applyOp .mod x y) (n := y) (by simp) (by simp [hb])
      apply Computes.copy (n := applyOp .mod x y - y) (by simp)
      exact .nil (by simp [lettered, Corrected, hrem, hneg])
    · intro hneg
      apply Computes.copy (n := applyOp .mod x y) (by simp)
      exact .nil (by simp [lettered, Corrected, hneg])
  · intro hrem
    apply Computes.copy (n := applyOp .mod x y) (by simp)
    exact .nil (by simp [lettered, Corrected, hrem])

/-- A quotient is corrected where rounding down and toward zero differ. -/
theorem corrected_iff (h : y ≠ 0) : Corrected x y ↔
    x.toInt.fmod y.toInt ≠ 0 ∧ x.toInt.fdiv y.toInt ≤ -1 := by
  by_cases hover : x = Int32.minValue ∧ y = -1
  · -- The quotient that wraps around is negative, but nothing remains.
    obtain ⟨rfl, rfl⟩ := hover
    decide
  · have hzero : applyOp .mod x y = 0 ↔ x.toInt.fmod y.toInt = 0 := by
      rw [← toInt_applyOp_mod h]
      exact Int32.toInt_inj.symm
    rw [Corrected, toInt_applyOp_div h hover, ne_eq, hzero]
    omega

theorem implements_div_signed (hlib : code.HasLibrary) :
    Implements code (binaryBody (.div .signed)) (.div .signed) := by
  intro x y
  refine ⟨_, turns_divS.call hlib, fun r hr => ?_⟩
  rw [IntBinary.value?, ite_eq_iff] at hr
  obtain ⟨-, hr⟩ | ⟨hdefined, hr⟩ := hr
  · cases hr
  · cases hr
    have hy : y ≠ 0 := fun hy => hdefined (.inl hy)
    rw [tdiv_eq_fdiv_of_ne_zero (toInt_ne_zero hy), apply_ite Int32.ofInt, Int32.ofInt_add,
      ← applyOp_div hy]
    simp only [corrected_iff hy]
    rfl

theorem implements_rem_signed (hlib : code.HasLibrary) :
    Implements code (binaryBody (.rem .signed)) (.rem .signed) := by
  intro x y
  refine ⟨_, turns_remS.call hlib, fun r hr => ?_⟩
  rw [IntBinary.value?, ite_eq_iff] at hr
  obtain ⟨-, hr⟩ | ⟨hy, hr⟩ := hr
  · cases hr
  · cases hr
    rw [tmod_eq_fmod_of_ne_zero (toInt_ne_zero hy), apply_ite Int32.ofInt, Int32.ofInt_sub,
      Int32.ofInt_toInt, ← applyOp_mod hy]
    simp only [corrected_iff hy]

/-! ## Division without a sign -/

/-- Quotient and remainder of the numbers without a sign are in `#c` and `#d`. -/
structure Divides (x y : Int32) (σ τ : State) : Prop where
  touches : Touches [.c, .d, .e, .f] σ τ
  quotient : ∃ q, τ.regs .c = some q ∧ unsigned q = unsigned x / unsigned y
  remainder : ∃ r, τ.regs .d = some r ∧ unsigned r = unsigned x % unsigned y

/-- What is compared are the numbers without a sign. -/
theorem allows_notBelow (he : σ.regs .e = some (m + Int32.minValue))
    (hf : σ.regs .f = some (n + Int32.minValue)) :
    σ.allows (.onlyIf (.compare .e .ge .f)) = some (decide (unsigned n ≤ unsigned m)) := by
  have hle : n + Int32.minValue ≤ m + Int32.minValue ↔ unsigned n ≤ unsigned m := by
    rw [Int32.le_iff_toInt_le, toInt_biased, toInt_biased]
    omega
  show (σ.regs .e).bind (fun x => (σ.regs .f).map fun y => decide (y ≤ x)) = _
  rw [he, hf]
  simp [hle]

/-- A command that runs if one number is at least the other, without their signs. -/
theorem Computes.ifNotBelow (he : σ.regs .e = some (m + Int32.minValue))
    (hf : σ.regs .f = some (n + Int32.minValue))
    (hyes : unsigned n ≤ unsigned m → Computes code ns (c :: cs) σ Q)
    (hno : unsigned m < unsigned n → Computes code ns cs σ Q) :
    Computes code ns (Library.ifNotBelow c :: cs) σ Q := by
  apply guarded (allows_notBelow he hf)
  · intro h
    exact hyes (of_decide_eq_true h)
  · intro h
    exact hno (Nat.not_le.1 (of_decide_eq_false h))

theorem computes_udivmodLarge (ha : σ.regs .a = some x) (hb : σ.regs .b = some y)
    (hy : 2 ^ 31 ≤ unsigned y) : Computes code ns Library.udivmodLarge σ (Divides x y σ) := by
  have hx := @unsigned_lt x
  apply Computes.copy ha
  apply Computes.add (m := x) (by simp)
  apply Computes.copy (n := y) (by simp [hb])
  apply Computes.add (m := y) (by simp)
  apply Computes.set
  apply Computes.ifNotBelow (m := x) (n := y) (by simp) (by simp)
  · intro hle
    apply Computes.set
    apply Computes.copy (n := x) (by simp [ha])
    apply Computes.ifIn contains_exact (n := 1) (by simp)
    · intro _
      apply Computes.op (by decide) (m := x) (n := y) (by simp) (by simp [hb])
      have hsub : unsigned (x - y) = unsigned x - unsigned y := by
        rw [unsigned_sub]
        omega
      obtain ⟨hq, hr⟩ : unsigned x / unsigned y = 1 ∧
          unsigned x % unsigned y = unsigned x - unsigned y :=
        (Nat.div_mod_unique (by omega)).2 ⟨by omega, by omega⟩
      exact .nil ⟨by simp, ⟨1, by simp, hq.symm⟩, ⟨x - y, by simp, hsub.trans hr.symm⟩⟩
    · intro hne
      exact absurd rfl hne
  · intro hlt
    apply Computes.copy (n := x) (by simp [ha])
    apply Computes.ifIn contains_exact (n := 0) (by simp)
    · intro hne
      cases hne
    · intro _
      refine .nil ⟨by simp, ⟨0, by simp, ?_⟩, ⟨x, by simp, ?_⟩⟩
      · exact (Nat.div_eq_of_lt hlt).symm
      · exact (Nat.mod_eq_of_lt hlt).symm

theorem computes_udivmodPos (ha : σ.regs .a = some x) (hb : σ.regs .b = some y)
    (hx : unsigned x < 2 ^ 31) (hy : unsigned y < 2 ^ 31) (h : y ≠ 0) :
    Computes code ns Library.udivmodPos σ (Divides x y σ) := by
  apply Computes.copy ha
  apply Computes.op (by decide) (m := x) (n := y) (by simp) (by simp [hb])
  apply Computes.copy (n := x) (by simp [ha])
  apply Computes.op (by decide) (m := x) (n := y) (by simp) (by simp [hb])
  exact .nil ⟨by simp, ⟨applyOp .div x y, by simp, unsigned_applyOp_div hx hy h⟩,
    ⟨applyOp .mod x y, by simp, unsigned_applyOp_mod hx hy h⟩⟩

/-- A remainder that is brought one bit further down takes the divisor at most once. -/
theorem div_mod_of_half {u v : Nat} (hv : 0 < v) :
    u / v = u / 2 / v * 2 + (if v ≤ u / 2 % v * 2 + u % 2 then 1 else 0) ∧
      u % v = u / 2 % v * 2 + u % 2 - (if v ≤ u / 2 % v * 2 + u % 2 then v else 0) := by
  have hhalf := Nat.div_add_mod (u / 2) v
  have hlt := Nat.mod_lt (u / 2) hv
  have htwo : v * (u / 2 / v * 2) = v * (u / 2 / v) * 2 := (Nat.mul_assoc ..).symm
  apply (Nat.div_mod_unique hv).2
  split
  · rw [Nat.mul_add]
    omega
  · rw [Nat.add_zero]
    omega

theorem computes_udivmodNeg (ha : σ.regs .a = some x) (hb : σ.regs .b = some y)
    (htwo : σ.regs (.const 2) = some 2) (hx : x.toInt < 0) (hy : unsigned y < 2 ^ 31)
    (h : y ≠ 0) : Computes code ns Library.udivmodNeg σ (Divides x y σ) := by
  have hx' := @unsigned_lt x
  have hpos := unsigned_pos h
  -- All bits of the dividend but the lowest, and that bit.
  obtain ⟨e, he⟩ : ∃ e, e = applyOp .div x 2 + Int32.minValue := ⟨_, rfl⟩
  obtain ⟨f, hf⟩ : ∃ f, f = applyOp .mod x 2 := ⟨_, rfl⟩
  have hupper : unsigned e = unsigned x / 2 := he ▸ unsigned_halved hx
  have hbit : unsigned f = unsigned x % 2 := hf ▸ unsigned_applyOp_mod_two
  -- Twice the quotient of the upper bits, and what remains with the lowest bit brought in.
  obtain ⟨q, hq⟩ : ∃ q, q = applyOp .div e y * 2 := ⟨_, rfl⟩
  obtain ⟨r, hr⟩ : ∃ r, r = applyOp .mod e y * 2 + f := ⟨_, rfl⟩
  have hquotient : unsigned q = unsigned x / 2 / unsigned y * 2 := by
    have hle : unsigned x / 2 / unsigned y ≤ unsigned x / 2 := Nat.div_le_self _ _
    rw [hq, unsigned_mul, unsigned_applyOp_div (by omega) hy h, hupper]
    exact Nat.mod_eq_of_lt (by show _ * 2 < _; omega)
  have hremainder : unsigned r = unsigned x / 2 % unsigned y * 2 + unsigned x % 2 := by
    have hlt : unsigned x / 2 % unsigned y < unsigned y := Nat.mod_lt _ hpos
    have htwice : unsigned (applyOp .mod e y * 2) = unsigned x / 2 % unsigned y * 2 := by
      rw [unsigned_mul, unsigned_applyOp_mod (by omega) hy h, hupper]
      exact Nat.mod_eq_of_lt (by show _ * 2 < _; omega)
    rw [hr, unsigned_add, htwice, hbit]
    exact Nat.mod_eq_of_lt (by omega)
  obtain ⟨hdiv, hmod⟩ := div_mod_of_half (u := unsigned x) hpos
  rw [← hquotient, ← hremainder] at hdiv
  rw [← hremainder] at hmod
  apply Computes.copy ha
  apply Computes.op (by decide) (m := x) (n := 2) (by simp) (by simp [htwo])
  apply Computes.add (m := applyOp .div x 2) (by simp)
  apply Computes.copy (n := x) (by simp [ha])
  apply Computes.op (by decide) (m := x) (n := 2) (by simp) (by simp [htwo])
  apply Computes.copy (n := e) (by simp [he])
  apply Computes.op (by decide) (m := e) (n := y) (by simp) (by simp [hb])
  apply Computes.op (by decide) (m := applyOp .div e y) (n := 2) (by simp) (by simp [htwo])
  apply Computes.copy (n := e) (by simp [he])
  apply Computes.op (by decide) (m := e) (n := y) (by simp) (by simp [hb])
  apply Computes.op (by decide) (m := applyOp .mod e y) (n := 2) (by simp) (by simp [htwo])
  apply Computes.op (by decide) (m := applyOp .mod e y * 2) (n := f) (by simp) (by simp [hf])
  apply Computes.copy (n := r) (by simp [hr])
  apply Computes.add (m := r) (by simp)
  apply Computes.copy (n := y) (by simp [hb])
  apply Computes.add (m := y) (by simp)
  apply Computes.ifNotBelow (m := r) (n := y) (by simp) (by simp)
  · intro hle
    rw [if_pos hle] at hdiv hmod
    apply Computes.op (by decide) (m := r) (n := y) (by simp [hr]) (by simp [hb])
    apply Computes.ifNotBelow (m := r) (n := y) (by simp) (by simp)
    · intro _
      apply Computes.add (m := q) (by simp [hq])
      refine .nil ⟨by simp, ⟨q + 1, by simp, ?_⟩, ⟨r - y, by simp, ?_⟩⟩
      · have hone : unsigned 1 = 1 := rfl
        have hfits := Nat.div_le_self (unsigned x) (unsigned y)
        rw [hdiv] at hfits
        rw [unsigned_add, hdiv, hone]
        exact Nat.mod_eq_of_lt (by omega)
      · have hfits := @unsigned_lt r
        rw [unsigned_sub, hmod]
        omega
    · intro hlt
      omega
  · intro hlt
    rw [if_neg (Nat.not_le.2 hlt)] at hdiv hmod
    apply Computes.ifNotBelow (m := r) (n := y) (by simp) (by simp)
    · intro hle
      omega
    · intro _
      exact .nil ⟨by simp, ⟨q, by simp [hq], hdiv.symm⟩, ⟨r, by simp [hr], hmod.symm⟩⟩

/-- Only one of the routines that a dividend and a divisor of one sign each call for is run. -/
theorem computes_udivmodSmall (hlib : code.HasLibrary) (ha : σ.regs .a = some x)
    (hb : σ.regs .b = some y) (htwo : σ.regs (.const 2) = some 2) (hy : unsigned y < 2 ^ 31)
    (h : y ≠ 0) : Computes code ns Library.udivmodSmall σ (Divides x y σ) := by
  have hsign := @toInt_eq_unsigned x
  apply Computes.ifIn contains_nonnegative ha
  · intro hpos
    have hx : unsigned x < 2 ^ 31 := by
      split at hsign
      · assumption
      · have := @unsigned_lt x
        omega
    apply Computes.call hlib (computes_udivmodPos ha hb hx hy h)
    intro τ hτ
    apply Computes.ifIn contains_negative (hτ.touches.read (by simp) ha)
    · intro hneg
      omega
    · intro _
      exact .nil hτ
  · intro hneg
    apply Computes.ifIn contains_negative ha
    · intro hx
      exact .callLast hlib (computes_udivmodNeg ha hb htwo hx hy h)
    · intro hpos
      omega

theorem computes_udivmod (hlib : code.HasLibrary) (ha : σ.regs .a = some x)
    (hb : σ.regs .b = some y) (htwo : σ.regs (.const 2) = some 2) :
    Computes code ns Library.udivmod σ (Divides x y σ) := by
  have hsign := @toInt_eq_unsigned y
  have hy := @unsigned_lt y
  apply Computes.ifIn contains_exact hb
  · -- A division by zero leaves the dividend.
    rintro rfl
    apply Computes.set
    apply Computes.ifIn contains_exact (n := 0) (by simp [hb])
    · intro _
      apply Computes.copy (n := x) (by simp [ha])
      apply Computes.ifIn contains_negative (n := 0) (by simp [hb])
      · intro hneg
        cases hneg
      · intro _
        apply Computes.ifIn contains_positive (n := 0) (by simp [hb])
        · intro hpos
          cases hpos
        · intro _
          exact .nil ⟨by simp, ⟨0, by simp, (Nat.div_zero _).symm⟩,
            ⟨x, by simp, (Nat.mod_zero _).symm⟩⟩
    · intro hne
      exact absurd rfl hne
  · intro hne
    apply Computes.ifIn contains_exact hb
    · intro hzero
      exact absurd hzero hne
    · intro _
      have hzero := toInt_ne_zero hne
      apply Computes.ifIn contains_negative hb
      -- Read as signed, a divisor of 2 ^ 31 or more is negative.
      · intro hneg
        apply Computes.call hlib (computes_udivmodLarge ha hb (by split at hsign <;> omega))
        intro τ hτ
        apply Computes.ifIn contains_positive (hτ.touches.read (by simp) hb)
        · intro hpos
          omega
        · intro _
          exact .nil hτ
      · intro hpos
        apply Computes.ifIn contains_positive hb
        · intro _
          exact .callLast hlib
            (computes_udivmodSmall hlib ha hb htwo (by split at hsign <;> omega) hne)
        · intro hneg
          omega

theorem turns_divU (hlib : code.HasLibrary) :
    Turns code lettered Library.divU x y (x.toUInt32 / y.toUInt32).toInt32 := by
  intro ns σ hσ ha hb
  apply Computes.call hlib (computes_udivmod hlib ha hb (hσ 2 (by decide)))
  intro τ hτ
  obtain ⟨q, hc, hq⟩ := hτ.quotient
  apply Computes.copy hc
  have heq : q = (x.toUInt32 / y.toUInt32).toInt32 :=
    eq_toInt32_of_unsigned (hq.trans (UInt32.toNat_div ..).symm)
  have htouches : Touches lettered σ τ := hτ.touches.mono (by decide)
  exact .nil (by simpa [lettered, heq] using htouches)

theorem turns_remU (hlib : code.HasLibrary) :
    Turns code lettered Library.remU x y (x.toUInt32 % y.toUInt32).toInt32 := by
  intro ns σ hσ ha hb
  apply Computes.call hlib (computes_udivmod hlib ha hb (hσ 2 (by decide)))
  intro τ hτ
  obtain ⟨r, hd, hr⟩ := hτ.remainder
  apply Computes.copy hd
  have heq : r = (x.toUInt32 % y.toUInt32).toInt32 :=
    eq_toInt32_of_unsigned (hr.trans (UInt32.toNat_mod ..).symm)
  have htouches : Touches lettered σ τ := hτ.touches.mono (by decide)
  exact .nil (by simpa [lettered, heq] using htouches)

theorem implements_div_unsigned (hlib : code.HasLibrary) :
    Implements code (binaryBody (.div .unsigned)) (.div .unsigned) := by
  intro x y
  refine ⟨_, (turns_divU hlib).call hlib, fun r hr => ?_⟩
  rw [IntBinary.value?, ite_eq_iff] at hr
  obtain ⟨-, hr⟩ | ⟨-, hr⟩ := hr
  · cases hr
  · exact Option.some.inj hr

theorem implements_rem_unsigned (hlib : code.HasLibrary) :
    Implements code (binaryBody (.rem .unsigned)) (.rem .unsigned) := by
  intro x y
  refine ⟨_, (turns_remU hlib).call hlib, fun r hr => ?_⟩
  rw [IntBinary.value?, ite_eq_iff] at hr
  obtain ⟨-, hr⟩ | ⟨-, hr⟩ := hr
  · cases hr
  · exact Option.some.inj hr

/-! ## The operators -/

variable {parts : List Part} {m : Machine} {op : IntBinary} {sign : Signedness} {low : List Nbt}

/-- A quotient is defined but by zero and where it does not fit; a remainder is but by zero. -/
theorem exists_value_of_division (hop : op = .div sign ∨ op = .rem sign) (hy : y ≠ 0)
    (hfits : op = .div .signed → ¬ (x = Int32.minValue ∧ y = -1)) :
    ∃ z, op.value? x y = some z := by
  obtain rfl | rfl := hop <;> cases sign
  · exact ⟨_, if_neg (not_or.2 ⟨hy, hfits rfl⟩)⟩
  · exact ⟨_, if_neg hy⟩
  · exact ⟨_, if_neg hy⟩
  · exact ⟨_, if_neg hy⟩

theorem implements_division (hlib : code.HasLibrary) (hop : op = .div sign ∨ op = .rem sign) :
    Implements code (binaryBody op) op := by
  obtain rfl | rfl := hop <;> cases sign
  · exact implements_div_signed hlib
  · exact implements_div_unsigned hlib
  · exact implements_rem_signed hlib
  · exact implements_rem_unsigned hlib

/-- **Division.**  Where the library has been prepared, the commands of each operator of division
    come to their end with the value of the operator in place of the operands, whatever is below
    them, unless the divisor is zero or the quotient does not fit. -/
theorem divisions_complete (ns : String) (h : Booted parts m) (hs : m.store.Models σ)
    (hop : op = .div sign ∨ op = .rem sign)
    (hstack : σ.operands = some (entries (low ++ [.int x, .int y]))) (hy : y ≠ 0)
    (hfits : op = .div .signed → ¬ (x = Int32.minValue ∧ y = -1)) :
    ∃ l z, lowerNumeric (.intBinary .w32 op) = .ok l ∧ op.value? x y = some z ∧
      Completes m.code ns l.commands m.store fun τ =>
        τ.operands = some (entries (low ++ [.int z])) := by
  obtain ⟨z, hz⟩ := exists_value_of_division hop hy hfits
  obtain ⟨l, hl, hcompletes⟩ := (implements_division h.hasLibrary hop).completes h hs hstack hz
  exact ⟨l, z, hl, hz, hcompletes.operands⟩

/-- The remainder of the least number by the greatest negative one, whose quotient does not fit. -/
theorem divisions_complete_least : ∃ m l, Booted [.library] m ∧
    Holds (fun σ => σ.operands = some (entries [.int 5, .int Int32.minValue, .int (-1)])) m.store ∧
    lowerNumeric (.intBinary .w32 (.rem .signed)) = .ok l ∧
    Completes m.code "" l.commands m.store fun τ =>
      τ.operands = some (entries [.int 5, .int 0]) := by
  obtain ⟨m, σ, h, hs, hstack⟩ := exists_booted [5, Int32.minValue, -1]
  have hlow : σ.operands = some (entries ([.int 5] ++ [.int Int32.minValue, .int (-1)])) := hstack
  obtain ⟨l, z, hl, hz, hcompletes⟩ := divisions_complete "" h hs (.inr rfl) hlow (by decide)
    fun hop => nomatch hop
  have hzero : IntBinary.value? (.rem .signed) Int32.minValue (-1) = some 0 := by decide
  cases hz.symm.trans hzero
  exact ⟨m, l, h, ⟨σ, hs, hstack⟩, hl, hcompletes⟩

end WasmPack.Machine
