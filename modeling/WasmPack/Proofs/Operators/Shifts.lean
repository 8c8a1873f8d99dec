/-
  WasmPack.Proofs.Operators.Shifts

  Shifts and rotates, which go place by place.

  The count is reduced to below 32 first, and each turn of a loop takes one place
  off it.  A rotate puts two shifts together, so what it keeps meanwhile must not
  lie in a register that shifts use.
-/
import WasmPack.Proofs.Operators.Bitwise

namespace WasmPack.Machine

open Compile Wasm
open Nbt (entries)

variable {code : Code} {ns : String} {σ : State} {self loop : Routine} {op : ScoreOp}
  {x y n : Int32} {i k : Nat} {v : Nat → Int32} {rs : List Register}

/-! ## Counts -/

theorem toInt_ofNat_of_le (h : k ≤ 32) : (Int32.ofNat k).toInt = k := by
  rw [← Int32.ofInt_eq_ofNat]
  exact Int32.toInt_ofInt_of_le (by omega) (by omega)

theorem ofNat_succ_sub_one : Int32.ofNat (k + 1) + -1 = Int32.ofNat k := by
  rw [← Int32.ofInt_eq_ofNat, ← Int32.ofInt_eq_ofNat, Int.natCast_succ, Int32.ofInt_add]
  show Int32.ofInt k + 1 + -1 = _
  rw [Int32.add_assoc]
  exact Int32.add_zero _

/-- The remainder by 32 is the number of places. -/
theorem applyOp_mod_places : applyOp .mod y 32 = Int32.ofNat (places y) := by
  have h32 : (32 : Int32).toInt = 32 := rfl
  have hy := @toInt_eq_unsigned y
  have hlt := @places_lt y
  rw [← Int32.toInt_inj, toInt_applyOp_mod (by decide), toInt_ofNat_of_le (by omega), h32,
    Int.fmod_eq_emod_of_nonneg _ (by decide), places]
  split at hy <;> omega

theorem places_ofNat (h : k ≤ 32) : places (Int32.ofNat k) = k % 32 := by
  have hk := toInt_ofNat_of_le h
  have hsign := @toInt_eq_unsigned (Int32.ofNat k)
  have hlt := @unsigned_lt (Int32.ofNat k)
  have hu : unsigned (Int32.ofNat k) = k := by
    split at hsign <;> omega
  rw [places, hu]

/-! ## Shifts -/

/-- A loop runs its step as often as the count says. -/
theorem computes_shiftLoop (hlib : code.HasLibrary) (hop : op ≠ .swap)
    (hself : Library.routineCommands self =
      Library.shiftLoop self (.operation .a op (.const 2)))
    (htwo : σ.regs (.const 2) = some 2) (hv : ∀ j, i ≤ j → applyOp op (v j) 2 = v (j + 1))
    (hk : k < 32) (ha : σ.regs .a = some (v i)) (hb : σ.regs .b = some (Int32.ofNat (k + 1))) :
    Computes code ns (Library.routineCommands self) σ fun τ =>
      Touches [.a, .b] σ τ ∧ τ.regs .a = some (v (i + k + 1)) := by
  -- The induction is on the turns behind this one.
  induction k generalizing ns i σ with
  | zero =>
    rw [hself]
    apply Computes.op hop ha htwo
    rw [hv i (Nat.le_refl i)]
    apply Computes.add (m := Int32.ofNat 1) (by simpa using hb)
    apply Computes.ifIn contains_positive (n := Int32.ofNat 0) (by simp)
    · intro hpos
      cases hpos
    · intro _
      exact .nil (by simp)
  | succ k ih =>
    rw [hself]
    apply Computes.op hop ha htwo
    rw [hv i (Nat.le_refl i)]
    apply Computes.add (m := Int32.ofNat (k + 1 + 1)) (by simpa using hb)
    rw [ofNat_succ_sub_one]
    apply Computes.ifIn contains_positive (n := Int32.ofNat (k + 1)) (by simp)
    · intro _
      apply Computes.callLast hlib
      have hnext : ∀ j, i + 1 ≤ j → applyOp op (v j) 2 = v (j + 1) := fun j hj => hv j (by omega)
      apply (ih (i := i + 1) (by simp [htwo]) hnext (by omega) (by simp) (by simp)).mono
      rintro τ ⟨hτ, ha⟩
      have hturn : Touches [.a, .b] σ
          ((σ.setReg .a (v (i + 1))).setReg .b (Int32.ofNat (k + 1))) := by simp
      have hlast : i + 1 + k + 1 = i + (k + 1) + 1 := by omega
      exact ⟨hturn.trans hτ, hlast ▸ ha⟩
    · intro hpos
      rw [toInt_ofNat_of_le (by omega)] at hpos
      omega

/-- A count of zero leaves the number, and any other one is left to the loop. -/
theorem turns_shift (hlib : code.HasLibrary) (hv : v 0 = x) (hrs : .b ∈ rs)
    (hloop : ∀ σ k, k < 31 → Seeded σ → σ.regs .a = some x →
      σ.regs .b = some (Int32.ofNat (k + 1)) →
      Computes code sharedNamespace (Library.routineCommands loop) σ fun τ =>
        Touches rs σ τ ∧ τ.regs .a = some (v (k + 1))) :
    Turns code rs (Library.shift loop) x y (v (places y)) := by
  intro ns σ hσ ha hb
  have hlt := @places_lt y
  have hfirst : ∀ n, Touches rs σ (σ.setReg .b n) := fun n => by simp [hrs]
  apply Computes.op (by decide) hb (hσ 32 (by decide))
  rw [applyOp_mod_places]
  apply Computes.ifIn contains_positive (n := Int32.ofNat (places y)) (by simp)
  · intro hpos
    rw [toInt_ofNat_of_le (by omega)] at hpos
    obtain ⟨k, hk⟩ : ∃ k, places y = k + 1 := ⟨places y - 1, by omega⟩
    rw [hk]
    apply Computes.callLast hlib
    apply (hloop _ k (by omega) (fun n hn => by simpa using hσ n hn) (by simp [ha]) (by simp)).mono
    rintro τ ⟨hτ, hz⟩
    exact ⟨(hfirst _).trans hτ, hz⟩
  · intro hpos
    rw [toInt_ofNat_of_le (by omega)] at hpos
    have hzero : places y = 0 := by omega
    exact .nil (by simp [hrs, ha, hzero, hv])

theorem turns_shl (hlib : code.HasLibrary) :
    Turns code [.a, .b] (Library.routineCommands .shl) x y
      (Int32.ofBitVec (x.toBitVec <<< places y)) := by
  apply turns_shift (v := fun j => Int32.ofBitVec (x.toBitVec <<< j)) hlib
    (by simp) (by simp)
  intro σ k hk hσ ha hb
  have hstep : ∀ j, 0 ≤ j → applyOp .mul (Int32.ofBitVec (x.toBitVec <<< j)) 2 =
      Int32.ofBitVec (x.toBitVec <<< (j + 1)) := fun j _ => by
    rw [applyOp_mul_two, BitVec.shiftLeft_add]
  have hall := @computes_shiftLoop code sharedNamespace σ .shlLoop .mul 0 k
    (fun j => Int32.ofBitVec (x.toBitVec <<< j)) hlib (by decide) rfl (hσ 2 (by decide)) hstep
    (by omega) (by simp [ha]) hb
  rwa [Nat.zero_add] at hall

theorem turns_shrS (hlib : code.HasLibrary) :
    Turns code [.a, .b] (Library.routineCommands .shrS) x y (halved x (places y)) := by
  apply turns_shift hlib halved_zero (by simp)
  intro σ k hk hσ ha hb
  have hall := @computes_shiftLoop code sharedNamespace σ .shrSLoop .div 0 k (halved x) hlib
    (by decide) rfl (hσ 2 (by decide)) (fun _ _ => applyOp_div_halved) (by omega)
    (by rw [halved_zero, ha]) hb
  rwa [Nat.zero_add] at hall

/-- A number behind some shifts to the right that clear the sign. -/
def cleared (n : Int32) (i : Nat) : Int32 := Int32.ofBitVec (n.toBitVec >>> i)

theorem cleared_zero : cleared x 0 = x := by
  rw [cleared, BitVec.ushiftRight_zero, Int32.ofBitVec_toBitVec]

theorem unsigned_cleared : unsigned (cleared x i) = unsigned x / 2 ^ i := by
  show (x.toBitVec >>> i).toNat = _
  rw [BitVec.toNat_ushiftRight, Nat.shiftRight_eq_div_pow]
  rfl

theorem unsigned_applyOp_div_two (h : unsigned x < 2 ^ 31) :
    unsigned (applyOp .div x 2) = unsigned x / 2 := unsigned_applyOp_div h (by decide) (by decide)

/-- Once the sign is cleared, halving keeps it clear. -/
theorem applyOp_div_cleared (hi : 1 ≤ i) : applyOp .div (cleared x i) 2 = cleared x (i + 1) := by
  have hlt : unsigned (cleared x i) < 2 ^ 31 := by
    have hx := @unsigned_lt x
    have hpow : 2 ^ 1 ≤ 2 ^ i := Nat.pow_le_pow_right (by decide) hi
    rw [unsigned_cleared]
    apply Nat.div_lt_of_lt_mul
    omega
  rw [← unsigned_inj, unsigned_applyOp_div_two hlt, unsigned_cleared, unsigned_cleared,
    Nat.div_div_eq_div_mul, Nat.pow_succ]

/-- Half the range takes the sign away that halving keeps. -/
theorem cleared_one :
    cleared x 1 = if x.toInt < 0 then applyOp .div x 2 + Int32.minValue else applyOp .div x 2 := by
  have hsign := @toInt_eq_unsigned x
  have hx := @unsigned_lt x
  rw [← unsigned_inj, unsigned_cleared, Nat.pow_one]
  split
  · rw [unsigned_halved ‹_›]
  · rw [unsigned_applyOp_div_two (by split at hsign <;> omega)]

theorem computes_shrUFirst (hlib : code.HasLibrary) (hσ : Seeded σ) (hk : k < 31)
    (ha : σ.regs .a = some x) (hb : σ.regs .b = some (Int32.ofNat (k + 1))) :
    Computes code ns Library.shrUFirst σ fun τ =>
      Touches [.a, .b, .c] σ τ ∧ τ.regs .a = some (cleared x (k + 1)) := by
  -- The rest of the commands, once the first place is done.
  have hrest : ∀ υ, Touches [.a, .b, .c] σ υ → υ.regs .a = some (cleared x 1) →
      υ.regs .b = some (Int32.ofNat (k + 1)) →
      Computes code ns [.addScore .b (-1),
        (Command.call (.routine .shrSLoop)).ifIn .b (.atLeast 1)] υ fun τ =>
          Touches [.a, .b, .c] σ τ ∧ τ.regs .a = some (cleared x (k + 1)) := by
    intro υ hυ ha hb
    have htwo : υ.regs (.const 2) = some 2 := hυ.read (by simp) (hσ 2 (by decide))
    apply Computes.add hb
    rw [ofNat_succ_sub_one]
    apply Computes.ifIn contains_positive (n := Int32.ofNat k) (by simp)
    · intro hpos
      rw [toInt_ofNat_of_le (by omega)] at hpos
      obtain ⟨j, rfl⟩ : ∃ j, k = j + 1 := ⟨k - 1, by omega⟩
      apply Computes.callLast hlib
      have hall := @computes_shiftLoop code sharedNamespace (υ.setReg .b (Int32.ofNat (j + 1)))
        .shrSLoop .div 1 j (cleared x) hlib (by decide) rfl (by simp [htwo])
        (fun _ hj => applyOp_div_cleared hj) (by omega) (by simp [ha]) (by simp)
      apply hall.mono
      rintro τ ⟨hτ, hz⟩
      have hlast : 1 + j + 1 = j + 1 + 1 := by omega
      have hfirst : Touches [.a, .b, .c] σ (υ.setReg .b (Int32.ofNat (j + 1))) := by
        simpa using hυ
      exact ⟨hfirst.trans (hτ.mono (by simp)), hlast ▸ hz⟩
    · intro hpos
      rw [toInt_ofNat_of_le (by omega)] at hpos
      obtain rfl : k = 0 := by omega
      exact .nil ⟨by simpa using hυ, by simpa using ha⟩
  have hone := @cleared_one x
  apply Computes.copy ha
  apply Computes.op (by decide) (m := x) (n := 2) (by simp [ha]) (by simp [hσ 2 (by decide)])
  apply Computes.ifIn contains_negative (n := x) (by simp)
  · intro hneg
    rw [if_pos hneg] at hone
    apply Computes.add (m := applyOp .div x 2) (by simp)
    exact hrest _ (by simp) (by simp [hone]) (by simp [hb])
  · intro hpos
    rw [if_neg hpos] at hone
    exact hrest _ (by simp) (by simp [hone]) (by simp [hb])

theorem turns_shrU (hlib : code.HasLibrary) :
    Turns code [.a, .b, .c] (Library.routineCommands .shrU) x y (cleared x (places y)) :=
  turns_shift hlib cleared_zero (by simp) fun _ _ hk hσ ha hb =>
    computes_shrUFirst hlib hσ hk ha hb

/-! ## Rotates -/

theorem sub_ofNat (h : k ≤ 32) : (32 : Int32) - Int32.ofNat k = Int32.ofNat (32 - k) := by
  have h32 : (32 : Int32) = Int32.ofInt 32 := rfl
  have hsub : ((32 - k : Nat) : Int) = 32 - k := by omega
  rw [← Int32.ofInt_eq_ofNat, ← Int32.ofInt_eq_ofNat, hsub, Int32.ofInt_sub, h32]

/-- What goes out on one side comes in on the other.  A count of zero moves nothing in either
    direction. -/
theorem rotateLeft_eq_or (w : BitVec 32) (hk : k < 32) :
    w >>> ((32 - k) % 32) ||| w <<< k = w.rotateLeft k := by
  rw [BitVec.rotateLeft_def, Nat.mod_eq_of_lt hk]
  rcases Nat.eq_zero_or_pos k with rfl | hpos
  · rw [Nat.sub_zero, Nat.mod_self, BitVec.ushiftRight_zero, BitVec.shiftLeft_zero, BitVec.or_self,
      BitVec.ushiftRight_eq_zero (Nat.le_refl 32), BitVec.or_zero]
  · rw [Nat.mod_eq_of_lt (by omega), BitVec.or_comm]

/-- A rotation to the right is one to the left by the places that are missing to 32. -/
theorem rotateRight_eq_rotateLeft (w : BitVec 32) (hk : k < 32) :
    w.rotateRight k = w.rotateLeft ((32 - k) % 32) := by
  rw [← rotateLeft_eq_or w (Nat.mod_lt _ (by decide)), BitVec.rotateRight_def, Nat.mod_eq_of_lt hk]
  rcases Nat.eq_zero_or_pos k with rfl | hpos
  · have hnone : (32 - (32 - 0) % 32) % 32 = 0 := rfl
    rw [hnone, Nat.sub_zero, BitVec.ushiftRight_zero, BitVec.shiftLeft_zero,
      BitVec.shiftLeft_eq_zero (Nat.le_refl 32), BitVec.or_zero, BitVec.or_self]
  · have hback : (32 - (32 - k) % 32) % 32 = k := by omega
    rw [hback, Nat.mod_eq_of_lt (by omega)]

theorem turns_rotl (hlib : code.HasLibrary) :
    Turns code lettered (Library.routineCommands .rotl) x y
      (Int32.ofBitVec (x.toBitVec.rotateLeft (places y))) := by
  intro ns σ hσ ha hb
  have hlt := @places_lt y
  -- The number and the count are kept where shifts do not go.
  obtain ⟨σ₁, hσ₁⟩ : ∃ σ₁, σ₁ = ((σ.setReg .e x).setReg .f y).setReg .f
    (Int32.ofNat (places y)) := ⟨_, rfl⟩
  have h₁ : Touches lettered σ σ₁ := by simp [hσ₁, lettered]
  have ha₁ : σ₁.regs .a = some x := by simp [hσ₁, ha]
  have hb₁ : σ₁.regs .b = some y := by simp [hσ₁, hb]
  apply Computes.copy ha
  apply Computes.copy (n := y) (by simp [hb])
  apply Computes.op (by decide) (m := y) (n := 32) (by simp) (by simp [hσ 32 (by decide)])
  rw [applyOp_mod_places, ← hσ₁]
  apply (turns_shl hlib).andThen hlib (h₁.seeded hσ) ha₁ hb₁
  intro τ hτ hleft
  have hτ' : Touches lettered σ τ := h₁.trans (hτ.mono (by simp [lettered]))
  have he : τ.regs .e = some x := hτ.read (by simp) (by simp [hσ₁])
  have hf : τ.regs .f = some (Int32.ofNat (places y)) := hτ.read (by simp) (by simp [hσ₁])
  have h32 : τ.regs (.const 32) = some 32 := hτ'.seeded hσ 32 (by decide)
  -- The other shift goes the other way, by the places that are missing to 32.
  obtain ⟨left, hl⟩ : ∃ left, left = Int32.ofBitVec (x.toBitVec <<< places y) := ⟨_, rfl⟩
  rw [← hl] at hleft
  obtain ⟨τ₁, hτ₁⟩ : ∃ τ₁, τ₁ = (((τ.setReg .d left).setReg .a x).setReg .b 32).setReg .b
    (Int32.ofNat (32 - places y)) := ⟨_, rfl⟩
  have h₂ : Touches lettered σ τ₁ := by simpa [hτ₁, lettered] using hτ'
  have ha₂ : τ₁.regs .a = some x := by simp [hτ₁]
  have hb₂ : τ₁.regs .b = some (Int32.ofNat (32 - places y)) := by simp [hτ₁]
  apply Computes.copy hleft
  apply Computes.copy (n := x) (by simp [he])
  apply Computes.copy (n := 32) (by simp [h32])
  apply Computes.op (by decide) (m := 32) (n := Int32.ofNat (places y)) (by simp) (by simp [hf])
  rw [applyOp_sub, sub_ofNat (Nat.le_of_lt hlt), ← hτ₁]
  apply (turns_shrU hlib).andThen hlib (h₂.seeded hσ) ha₂ hb₂
  intro υ hυ hright
  rw [places_ofNat (Nat.sub_le _ _)] at hright
  have hυ' : Touches lettered σ υ := h₂.trans (hυ.mono (by simp [lettered]))
  have hd : υ.regs .d = some left := hυ.read (by simp) (by simp [hτ₁])
  -- Both are put together.
  have h₃ : Touches lettered σ (υ.setReg .b left) := by simpa [lettered] using hυ'
  have ha₃ : (υ.setReg .b left).regs .a = some (cleared x ((32 - places y) % 32)) := by
    simp [hright]
  have hb₃ : (υ.setReg .b left).regs .b = some left := by simp
  apply Computes.copy hd
  apply (turns_or hlib).andThen hlib (h₃.seeded hσ) ha₃ hb₃
  intro ω hω hz
  have hvalue : cleared x ((32 - places y) % 32) ||| left =
      Int32.ofBitVec (x.toBitVec.rotateLeft (places y)) := by
    rw [← rotateLeft_eq_or _ hlt, hl]
    rfl
  exact .nil ⟨h₃.trans hω, hvalue ▸ hz⟩

theorem turns_rotr (hlib : code.HasLibrary) :
    Turns code lettered (Library.routineCommands .rotr) x y
      (Int32.ofBitVec (x.toBitVec.rotateRight (places y))) := by
  intro ns σ hσ ha hb
  have hlt := @places_lt y
  have h32 : σ.regs (.const 32) = some 32 := hσ 32 (by decide)
  obtain ⟨σ₁, hσ₁⟩ : ∃ σ₁, σ₁ = (((σ.setReg .b (Int32.ofNat (places y))).setReg .e 32).setReg .e
    (Int32.ofNat (32 - places y))).setReg .b (Int32.ofNat (32 - places y)) := ⟨_, rfl⟩
  have h₁ : Touches lettered σ σ₁ := by simp [hσ₁, lettered]
  have ha₁ : σ₁.regs .a = some x := by simp [hσ₁, ha]
  have hb₁ : σ₁.regs .b = some (Int32.ofNat (32 - places y)) := by simp [hσ₁]
  apply Computes.op (by decide) hb h32
  rw [applyOp_mod_places]
  apply Computes.copy (n := 32) (by simp [h32])
  apply Computes.op (by decide) (m := 32) (n := Int32.ofNat (places y)) (by simp) (by simp)
  rw [applyOp_sub, sub_ofNat (Nat.le_of_lt hlt)]
  apply Computes.copy (n := Int32.ofNat (32 - places y)) (by simp)
  rw [← hσ₁]
  apply (turns_rotl hlib).andThen hlib (h₁.seeded hσ) ha₁ hb₁
  intro τ hτ hz
  rw [places_ofNat (Nat.sub_le _ _), ← rotateRight_eq_rotateLeft _ hlt] at hz
  exact .nil ⟨h₁.trans hτ, hz⟩

/-! ## The operators -/

variable {parts : List Part} {m : Machine} {low : List Nbt}

/-- What shifts and rotates a number gives a value for every count. -/
theorem exists_value_of_shift {op : IntBinary} {sign : Signedness}
    (hop : op = .shl ∨ op = .shr sign ∨ op = .rotl ∨ op = .rotr) : ∃ z, op.value? x y = some z := by
  obtain rfl | rfl | rfl | rfl := hop
  · exact ⟨_, rfl⟩
  · cases sign <;> exact ⟨_, rfl⟩
  · exact ⟨_, rfl⟩
  · exact ⟨_, rfl⟩

theorem implements_shift {op : IntBinary} {sign : Signedness} (hlib : code.HasLibrary)
    (hop : op = .shl ∨ op = .shr sign ∨ op = .rotl ∨ op = .rotr) :
    Implements code (binaryBody op) op := by
  intro x y
  obtain rfl | rfl | rfl | rfl := hop
  · exact ⟨_, ((turns_shl hlib).mono (by simp [lettered])).call hlib, fun _ => Option.some.inj⟩
  · cases sign with
    | signed =>
      exact ⟨_, ((turns_shrS hlib).mono (by simp [lettered])).call hlib, fun _ => Option.some.inj⟩
    | unsigned =>
      exact ⟨_, ((turns_shrU hlib).mono (by simp [lettered])).call hlib, fun _ => Option.some.inj⟩
  · exact ⟨_, (turns_rotl hlib).call hlib, fun _ => Option.some.inj⟩
  · exact ⟨_, (turns_rotr hlib).call hlib, fun _ => Option.some.inj⟩

/-- **Shifts and rotates.**  Where the library has been prepared, the commands of each operator that
    shifts or rotates come to their end with the value of the operator in place of the operands,
    whatever the count is and whatever is below them. -/
theorem shifts_complete {op : IntBinary} {sign : Signedness} (ns : String) (x y : Int32)
    (h : Booted parts m) (hs : m.store.Models σ)
    (hop : op = .shl ∨ op = .shr sign ∨ op = .rotl ∨ op = .rotr)
    (hstack : σ.operands = some (entries (low ++ [.int x, .int y]))) :
    ∃ l z, lowerNumeric (.intBinary .w32 op) = .ok l ∧ op.value? x y = some z ∧
      Completes m.code ns l.commands m.store fun τ =>
        τ.operands = some (entries (low ++ [.int z])) := by
  obtain ⟨z, hz⟩ := exists_value_of_shift hop
  obtain ⟨l, hl, hcompletes⟩ := (implements_shift h.hasLibrary hop).completes h hs hstack hz
  exact ⟨l, z, hl, hz, hcompletes.operands⟩

/-- A rotation to the right by a count that is negative. -/
theorem shifts_complete_negative : ∃ m l, Booted [.library] m ∧
    Holds (fun σ => σ.operands = some (entries [.int 7, .int 6, .int (-31)])) m.store ∧
    lowerNumeric (.intBinary .w32 .rotr) = .ok l ∧
    Completes m.code "" l.commands m.store fun τ =>
      τ.operands = some (entries [.int 7, .int 3]) := by
  obtain ⟨m, σ, h, hs, hstack⟩ := exists_booted [7, 6, -31]
  have hlow : σ.operands = some (entries ([.int 7] ++ [.int 6, .int (-31)])) := hstack
  obtain ⟨l, z, hl, hz, hcompletes⟩ := @shifts_complete σ [.library] m [.int 7] .rotr .signed "" 6
    (-31) h hs (.inr (.inr (.inr rfl))) hlow
  have hthree : IntBinary.value? .rotr 6 (-31) = some 3 := by decide
  cases hz.symm.trans hthree
  exact ⟨m, l, h, ⟨σ, hs, hstack⟩, hl, hcompletes⟩

end WasmPack.Machine
