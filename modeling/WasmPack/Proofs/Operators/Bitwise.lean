/-
  WasmPack.Proofs.Operators.Bitwise

  Bitwise operators, which are worked out bit by bit, the lowest first.

  In the turn for a bit, `#a` and `#b` hold the operands shifted to the right, so
  that the bit is the lowest one, `#d` holds its weight, and `#c` the bits of the
  result that are below.  After the turn for the sign the weight is gone.
-/
import WasmPack.Proofs.Operators.Values

namespace WasmPack.Machine

open Compile Wasm

variable {code : Code} {ns : String} {σ : State} {self loop : Routine} {ones : Range}
  {x y z c d : Int32} {i k : Nat}

/-! ## Bits -/

/-- A bit of a number, the lowest being the first. -/
def bit (n : Int32) (i : Nat) : Bool := n.toBitVec.getLsbD i

/-- A number behind some halvings. -/
def halved (n : Int32) (i : Nat) : Int32 := Int32.ofBitVec (n.toBitVec.sshiftRight i)

theorem halved_zero : halved x 0 = x := by
  rw [halved, BitVec.sshiftRight_zero, Int32.ofBitVec_toBitVec]

theorem applyOp_div_halved : applyOp .div (halved x i) 2 = halved x (i + 1) := by
  rw [halved, applyOp_div_two, ← BitVec.sshiftRight_add]
  rfl

/-- The lowest bit of what is left is the bit at hand. -/
theorem applyOp_mod_halved (hi : i < 32) : applyOp .mod (halved x i) 2 = (bit x i).toInt32 := by
  have hbit : (x.toBitVec.sshiftRight i).getLsbD 0 = bit x i := by
    rw [BitVec.getLsbD_sshiftRight, Nat.add_zero, if_pos hi]
    rfl
  rw [halved, applyOp_mod_two, hbit]

/-- The bits up to one at hand are those below it, and itself with its weight. -/
theorem mod_succ_of_bit : unsigned z % 2 ^ (i + 1) =
    unsigned z % 2 ^ i + if bit z i then 2 ^ i else 0 := by
  have hbit : (bit z i).toNat = unsigned z / 2 ^ i % 2 := Nat.toNat_testBit (unsigned z) i
  rw [Nat.mod_pow_succ, ← hbit]
  cases bit z i <;> simp

/-! ## Loops over the bits -/

/-- A loop whose turns double a weight has one turn for each bit: behind that of the sign the weight
    is gone. -/
theorem computes_weightLoop {T : Nat → State → Prop} {turn : List Command} (hlib : code.HasLibrary)
    (hself : Library.routineCommands self =
      turn ++ [(Command.call (.routine self)).unlessIn .d (.exact 0)])
    (hweight : ∀ {i σ}, T i σ → ∃ d, σ.regs .d = some d ∧ unsigned d = 2 ^ i % 2 ^ 32)
    (hturn : ∀ {ns i σ}, i < 32 → Seeded σ → T i σ →
      Computes code ns turn σ fun τ => Touches lettered σ τ ∧ T (i + 1) τ)
    (hik : i + k = 31) (hσ : Seeded σ) (h : T i σ) :
    Computes code ns (Library.routineCommands self) σ fun τ => Touches lettered σ τ ∧ T 32 τ := by
  -- The induction is on the number of turns behind this one.
  induction k generalizing ns i σ with
  | zero =>
    obtain rfl : i = 31 := by omega
    rw [hself]
    apply (hturn (by decide) hσ h).seq
    rintro τ ⟨hτ, hnext⟩
    obtain ⟨d, hd, hgone⟩ := hweight hnext
    apply Computes.unlessIn contains_exact hd
    · intro hne
      exact absurd (unsigned_inj.1 hgone) hne
    · intro _
      exact .nil ⟨hτ, hnext⟩
  | succ k ih =>
    rw [hself]
    apply (hturn (by omega) hσ h).seq
    rintro τ ⟨hτ, hnext⟩
    obtain ⟨d, hd, hdouble⟩ := hweight hnext
    apply Computes.unlessIn contains_exact hd
    · intro _
      apply Computes.callLast hlib
      apply (ih (by omega) (hτ.seeded hσ) hnext).mono
      rintro υ ⟨hυ, hlast⟩
      exact ⟨hτ.trans hυ, hlast⟩
    · -- The weight is not gone before the turn for the sign.
      rintro rfl
      have hlt : 2 ^ (i + 1) < 2 ^ 32 := Nat.pow_lt_pow_right (by decide) (by omega)
      have hpos : 0 < 2 ^ (i + 1) := Nat.two_pow_pos _
      rw [Nat.mod_eq_of_lt hlt] at hdouble
      exact absurd hdouble (Nat.ne_of_lt hpos)

/-- What such a loop collects in `#c` is the result. -/
theorem computes_collected (hlib : code.HasLibrary)
    (hloop : ∀ υ, Touches [.c, .d] σ υ → υ.regs .c = some 0 → υ.regs .d = some 1 →
      Computes code sharedNamespace (Library.routineCommands loop) υ fun τ =>
        Touches lettered υ τ ∧ τ.regs .c = some z) :
    Computes code ns (Library.bitwise loop) σ fun τ =>
      Touches lettered σ τ ∧ τ.regs .a = some z := by
  apply Computes.set
  apply Computes.set
  have htouches : Touches [.c, .d] σ ((σ.setReg .c 0).setReg .d 1) := by simp
  apply Computes.call hlib (hloop _ htouches (by simp) (by simp))
  rintro τ ⟨hτ, hc⟩
  apply Computes.copy hc
  have hend : Touches lettered σ τ := (htouches.mono (by simp [lettered])).trans hτ
  exact .nil (by simpa [lettered] using hend)

/-! ## Turns -/

/-- The range holds the numbers of ones for which the bit of the result is set. -/
def Combines (ones : Range) (x y z : Int32) : Prop :=
  ∀ i < 32, ones.contains ((bit x i).toInt32 + (bit y i).toInt32) = bit z i

/-- What registers hold before the turn for a bit. -/
structure TurnAt (x y z : Int32) (i : Nat) (σ : State) : Prop where
  a : σ.regs .a = some (halved x i)
  b : σ.regs .b = some (halved y i)
  c : ∃ c, σ.regs .c = some c ∧ unsigned c = unsigned z % 2 ^ i
  d : ∃ d, σ.regs .d = some d ∧ unsigned d = 2 ^ i % 2 ^ 32

/-- The commands of a turn but the last one, which goes on with the next turn. -/
def bitwiseTurn (ones : Range) : List Command :=
  [.copy .e .a,
    .operation .e .mod (.const 2),
    .copy .f .b,
    .operation .f .mod (.const 2),
    .operation .e .add .f,
    (Command.operation .c .add .d).ifIn .e ones,
    .operation .a .div (.const 2),
    .operation .b .div (.const 2),
    .operation .d .mul (.const 2)]

theorem bitwiseLoop_eq : Library.bitwiseLoop self ones =
    bitwiseTurn ones ++ [(Command.call (.routine self)).unlessIn .d (.exact 0)] := rfl

/-- A turn takes what registers hold to the next bit. -/
theorem computes_bitwiseTurn (hones : Combines ones x y z) (hi : i < 32) (hσ : Seeded σ)
    (h : TurnAt x y z i σ) : Computes code ns (bitwiseTurn ones) σ fun τ =>
      Touches lettered σ τ ∧ TurnAt x y z (i + 1) τ := by
  have htwo : σ.regs (.const 2) = some 2 := hσ 2 (by decide)
  have ha := h.a
  have hb := h.b
  obtain ⟨c, hc, hbelow⟩ := h.c
  obtain ⟨d, hd, hweight⟩ := h.d
  have hweight' : unsigned d = 2 ^ i := by
    rw [hweight]
    exact Nat.mod_eq_of_lt (Nat.pow_lt_pow_right (by decide) hi)
  have hnext : unsigned (d * 2) = 2 ^ (i + 1) % 2 ^ 32 := by
    rw [unsigned_mul, hweight', Nat.pow_succ]
    rfl
  have hsucc := mod_succ_of_bit (z := z) (i := i)
  -- What follows behind the weight has or has not been added.
  have hrest : ∀ υ c', Touches lettered σ υ → υ.regs .a = some (halved x i) →
      υ.regs .b = some (halved y i) → υ.regs .c = some c' → υ.regs .d = some d →
      unsigned c' = unsigned z % 2 ^ (i + 1) →
      Computes code ns [.operation .a .div (.const 2), .operation .b .div (.const 2),
        .operation .d .mul (.const 2)] υ fun τ => Touches lettered σ τ ∧ TurnAt x y z (i + 1) τ := by
    intro υ c' hυ ha hb hc hd hbelow
    have htwo' : υ.regs (.const 2) = some 2 := hυ.read (by simp [lettered]) htwo
    apply Computes.op (by decide) ha htwo'
    apply Computes.op (by decide) (m := halved y i) (n := 2) (by simp [hb]) (by simp [htwo'])
    apply Computes.op (by decide) (m := d) (n := 2) (by simp [hd]) (by simp [htwo'])
    refine .nil ⟨by simpa [lettered] using hυ, ?_⟩
    exact ⟨by simp [applyOp_div_halved], by simp [applyOp_div_halved], ⟨c', by simp [hc], hbelow⟩,
      ⟨d * 2, by simp, hnext⟩⟩
  apply Computes.copy ha
  apply Computes.op (by decide) (m := halved x i) (n := 2) (by simp) (by simp [htwo])
  rw [applyOp_mod_halved hi]
  apply Computes.copy (n := halved y i) (by simp [hb])
  apply Computes.op (by decide) (m := halved y i) (n := 2) (by simp) (by simp [htwo])
  rw [applyOp_mod_halved hi]
  apply Computes.op (by decide) (m := (bit x i).toInt32) (n := (bit y i).toInt32) (by simp)
    (by simp)
  rw [applyOp_add]
  have hset : ones.contains ((bit x i).toInt32 + (bit y i).toInt32) = true ↔ bit z i = true := by
    rw [hones i hi]
  apply Computes.ifIn hset (by simp)
  · intro hbit
    rw [if_pos hbit] at hsucc
    apply Computes.op (by decide) (m := c) (n := d) (by simp [hc]) (by simp [hd])
    refine hrest _ (c + d) (by simp [lettered]) (by simp [ha]) (by simp [hb]) (by simp)
      (by simp [hd]) ?_
    have hle := Nat.mod_le (unsigned z) (2 ^ (i + 1))
    have hlt := @unsigned_lt z
    rw [unsigned_add, hbelow, hweight', ← hsucc]
    exact Nat.mod_eq_of_lt (by omega)
  · intro hbit
    rw [if_neg hbit, Nat.add_zero] at hsucc
    exact hrest _ c (by simp [lettered]) (by simp [ha]) (by simp [hb]) (by simp [hc])
      (by simp [hd]) (hbelow.trans hsucc.symm)

/-- From the turn for a bit on, the bits from there on are collected as well. -/
theorem computes_bitwiseLoop (hlib : code.HasLibrary)
    (hself : Library.routineCommands self = Library.bitwiseLoop self ones)
    (hones : Combines ones x y z) (hσ : Seeded σ) (h : TurnAt x y z 0 σ) :
    Computes code ns (Library.routineCommands self) σ fun τ =>
      Touches lettered σ τ ∧ τ.regs .c = some z := by
  apply (computes_weightLoop (k := 31) (T := TurnAt x y z) hlib (hself.trans bitwiseLoop_eq)
    TurnAt.d (computes_bitwiseTurn hones) rfl hσ h).mono
  rintro τ ⟨hτ, hall⟩
  obtain ⟨c, hc, hbits⟩ := hall.c
  have hz : c = z := unsigned_inj.1 (hbits.trans (Nat.mod_eq_of_lt unsigned_lt))
  exact ⟨hτ, hz ▸ hc⟩

/-- The bits of the result are collected one by one. -/
theorem turns_bitwise (hlib : code.HasLibrary)
    (hloop : Library.routineCommands loop = Library.bitwiseLoop loop ones)
    (hones : Combines ones x y z) : Turns code lettered (Library.bitwise loop) x y z := by
  intro ns σ hσ ha hb
  apply computes_collected hlib
  intro υ hυ hc hd
  have hx : υ.regs .a = some (halved x 0) := by rw [halved_zero, hυ.read (by simp) ha]
  have hy : υ.regs .b = some (halved y 0) := by rw [halved_zero, hυ.read (by simp) hb]
  have hfirst : TurnAt x y z 0 υ := ⟨hx, hy, ⟨0, hc, (Nat.mod_one _).symm⟩, ⟨1, hd, rfl⟩⟩
  have htouches : Touches lettered σ υ := hυ.mono (by simp [lettered])
  exact computes_bitwiseLoop hlib hloop hones (htouches.seeded hσ) hfirst

/-! ## The operators -/

theorem turns_and (hlib : code.HasLibrary) :
    Turns code lettered (Library.routineCommands .and) x y (x &&& y) := by
  have hones : ∀ p q : Bool, (Range.exact 2).contains (p.toInt32 + q.toInt32) = (p && q) := by
    decide
  apply turns_bitwise hlib rfl
  intro i _
  rw [hones, bit, bit, ← BitVec.getLsbD_and]
  rfl

theorem turns_or (hlib : code.HasLibrary) :
    Turns code lettered (Library.routineCommands .or) x y (x ||| y) := by
  have hones : ∀ p q : Bool, (Range.atLeast 1).contains (p.toInt32 + q.toInt32) = (p || q) := by
    decide
  apply turns_bitwise hlib rfl
  intro i _
  rw [hones, bit, bit, ← BitVec.getLsbD_or]
  rfl

theorem turns_xor (hlib : code.HasLibrary) :
    Turns code lettered (Library.routineCommands .xor) x y (x ^^^ y) := by
  have hones : ∀ p q : Bool, (Range.exact 1).contains (p.toInt32 + q.toInt32) = (p ^^ q) := by
    decide
  apply turns_bitwise hlib rfl
  intro i _
  rw [hones, bit, bit, ← BitVec.getLsbD_xor]
  rfl

end WasmPack.Machine
