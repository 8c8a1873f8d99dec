/-
  WasmPack.Proofs.Reading.Integers

  What comes of reading an integer, in every case.

  The first byte ahead whose high bit is clear ends the integer.  If it comes
  within the limit of groups, the value decides; if not, either there are too
  many groups, or the input ends before there are.  Reading stops where this is
  settled, and an error stands at the byte that settles it.
-/
import WasmPack.Proofs.Reading.Data

namespace WasmPack.Binary

open Grammar

variable {α : Type} {bits left k : Nat} {c : Cursor} {b : UInt8} {t w : List UInt8}

/-! ## Outcomes -/

/-- Whether a group says that it is the last one. -/
def endsGroups (b : UInt8) : Bool := b.toNat < 128

theorem endsGroups_iff : endsGroups b = true ↔ b.toNat < 128 := decide_eq_true_iff

/-- What the bytes ahead make of the reading of an integer of so many groups at most, where groups
    have a value, and values that fit are read. -/
def integerOutcome (limit : Nat) (value : List UInt8 → α) (fits : α → Bool) (c : Cursor) :
    EStateM.Result DecodeError Cursor α :=
  match c.ahead.findIdx? endsGroups with
  | some k =>
    if k < limit then
      if fits (value (c.ahead.take (k + 1))) then
        .ok (value (c.ahead.take (k + 1))) (c.advance (k + 1))
      else .error ⟨c.pos + k, .integerTooLarge⟩ (c.advance (k + 1))
    else .error ⟨c.pos + limit, .integerTooLong⟩ (c.advance limit)
  | none =>
    if limit ≤ c.ahead.length then .error ⟨c.pos + limit, .integerTooLong⟩ (c.advance limit)
    else .error ⟨c.input.size, .unexpectedEnd⟩ (c.advance c.ahead.length)

/-! ## Groups -/

theorem readByte_of_ahead_nil (hv : c.Valid) (h : c.ahead = []) :
    readByte c = .error ⟨c.input.size, .unexpectedEnd⟩ c := by
  have hlen := Cursor.length_ahead c
  rw [h, List.length_nil] at hlen
  have hend : c.pos = c.input.size := Nat.le_antisymm hv (by omega)
  unfold readByte
  rw [Cursor.getElem?_pos, h, hend]
  rfl

/-- What a group says in front of others. -/
def inFront (b : UInt8) (rest : Groups) : Groups :=
  ⟨(b &&& 0x7F).toNat + 128 * rest.value, rest.span + 7, rest.negative⟩

/-- The last group is read. -/
theorem readGroups_last (hv : c.Valid) (hp : [b] <+: c.ahead) (hb : b.toNat < 128) :
    readGroups (left + 1) c = .ok (groupsOf [b]) (c.advance 1) := by
  have hbit : b &&& 0x80 = 0 := (high_bit_eq_zero_iff b).2 hb
  have hread : readGroups (left + 1) c = _ := bind_of_ok (readByte_of_ahead hv hp)
  rw [hread, groupsOf_singleton]
  simp only [hbit, ↓reduceIte]
  rfl

/-- A group is read in front of others. -/
theorem readGroups_more (hv : c.Valid) (hp : [b] <+: c.ahead) (hb : ¬ b.toNat < 128) :
    readGroups (left + 1) c =
      (readGroups left >>= fun rest => pure (inFront b rest)) (c.advance 1) := by
  have hbit : ¬ b &&& 0x80 = 0 := (high_bit_eq_zero_iff b).not.2 hb
  have hread : readGroups (left + 1) c = _ := bind_of_ok (readByte_of_ahead hv hp)
  rw [hread]
  simp only [hbit, ↓reduceIte]
  rfl

/-- What comes of groups that are not limited otherwise. -/
abbrev groupsOutcome (limit : Nat) : Decode Groups :=
  integerOutcome limit groupsOf fun _ => true

/-- Behind a group that is not the last, one less may follow. -/
theorem groupsOutcome_more (h : c.ahead = b :: t) (hb : ¬ b.toNat < 128) :
    groupsOutcome (left + 1) c =
      (groupsOutcome left >>= fun rest => pure (inFront b rest)) (c.advance 1) := by
  have hnext : (c.advance 1).ahead = t := by rw [Cursor.ahead_advance, h]; rfl
  show integerOutcome _ _ _ c = EStateM.bind _ _ _
  rw [EStateM.bind]
  unfold groupsOutcome integerOutcome
  rw [hnext, h, List.findIdx?_cons, if_neg (endsGroups_iff.not.2 hb)]
  cases hlast : t.findIdx? endsGroups with
  | some k =>
    have hne : t.take (k + 1) ≠ [] := by
      intro hnil
      cases t with
      | nil => cases hlast
      | cons => cases hnil
    by_cases hk : k < left
    · simp only [hk, Nat.succ_lt_succ hk, Option.map_some, List.take_succ_cons, ↓reduceIte,
        groupsOf_cons hne, Cursor.advance_advance, Nat.add_comm 1]
      rfl
    · simp only [hk, Nat.succ_lt_succ_iff, Option.map_some, ↓reduceIte, Cursor.advance_advance,
        Cursor.advance_pos, Nat.add_comm 1, Nat.add_assoc]
  | none =>
    by_cases hlen : left ≤ t.length
    · simp only [hlen, Nat.succ_le_succ hlen, Option.map_none, List.length_cons, ↓reduceIte,
        Cursor.advance_advance, Cursor.advance_pos, Nat.add_comm 1, Nat.add_assoc]
    · simp only [hlen, Nat.succ_le_succ_iff, Option.map_none, List.length_cons, ↓reduceIte,
        Cursor.advance_advance, Nat.add_comm 1]
      rfl

/-- Groups are read up to the last one, within the limit. -/
theorem readGroups_eq (hv : c.Valid) : readGroups left c = groupsOutcome left c := by
  -- The induction is on the groups that may follow; each is a byte further in the input.
  induction left generalizing c with
  | zero =>
    unfold groupsOutcome integerOutcome
    split <;> rfl
  | succ left ih =>
    cases hahead : c.ahead with
    | nil =>
      show EStateM.bind readByte _ c = _
      rw [EStateM.bind, readByte_of_ahead_nil hv hahead]
      unfold groupsOutcome integerOutcome
      rw [hahead]
      rfl
    | cons b t =>
      have hp : [b] <+: c.ahead := ⟨t, hahead.symm⟩
      by_cases hb : b.toNat < 128
      · rw [readGroups_last hv hp hb]
        unfold groupsOutcome integerOutcome
        rw [hahead, List.findIdx?_cons, if_pos (endsGroups_iff.2 hb)]
        rfl
      · have hnext : (c.advance 1).Valid := hv.advance hp
        rw [readGroups_more hv hp hb, groupsOutcome_more hahead hb]
        show EStateM.bind _ _ _ = EStateM.bind _ _ _
        rw [EStateM.bind, EStateM.bind, ih hnext]

/-! ## Integers -/

/-- Behind the groups the value decides, and an error stands at the last of them. -/
theorem bind_readGroups {f : Groups → Decode α} {value : List UInt8 → α} {fits : α → Bool}
    (hv : c.Valid) (hf : ∀ w m, f (groupsOf w) m = if fits (value w) then .ok (value w) m
      else .error ⟨m.pos - 1, .integerTooLarge⟩ m) :
    (readGroups left >>= f) c = integerOutcome left value fits c := by
  show EStateM.bind (readGroups left) f c = _
  rw [EStateM.bind, readGroups_eq hv]
  unfold groupsOutcome integerOutcome
  cases c.ahead.findIdx? endsGroups with
  | some k =>
    by_cases hk : k < left
    · simp only [hk, ↓reduceIte, hf]
      rfl
    · simp only [hk, ↓reduceIte]
  | none =>
    by_cases hlen : left ≤ c.ahead.length
    · simp only [hlen, ↓reduceIte]
    · simp only [hlen, ↓reduceIte]

theorem readUnsigned_eq (hv : c.Valid) : readUnsigned bits c =
    integerOutcome (groupLimit bits) magnitude (fun n => n < 2 ^ bits) c := by
  apply bind_readGroups hv
  intro w m
  have hvalue : (groupsOf w).value = magnitude w := rfl
  simp only [capacity_eq, hvalue, decide_eq_true_eq]
  split <;> rfl

theorem readSigned_eq (hv : c.Valid) : readSigned bits c = integerOutcome (groupLimit bits)
    signedValue (fun n => -2 ^ (bits - 1) ≤ n ∧ n < 2 ^ (bits - 1)) c := by
  apply bind_readGroups hv
  intro w m
  simp only [capacity_eq, toInt_groupsOf, decide_eq_true_eq, Nat.cast_pow, Nat.cast_ofNat]
  split <;> rfl

/-! ## Encodings -/

/-- A number in so many groups behind a first one, of which the last may be redundant. -/
def padded : Nat → Nat → List UInt8
  | 0, n => [UInt8.ofNat (n % 128)]
  | k + 1, n => UInt8.ofNat (128 + n % 128) :: padded k (n / 128)

theorem padded_ne_nil (k n : Nat) : padded k n ≠ [] := by
  cases k <;> exact List.cons_ne_nil _ _

theorem length_padded (k n : Nat) : (padded k n).length = k + 1 := by
  induction k generalizing n with
  | zero => rfl
  | succ k ih => rw [padded, List.length_cons, ih]

theorem groups_padded (k n : Nat) : Grammar.Groups (padded k n) := by
  induction k generalizing n with
  | zero =>
    apply Groups.last
    rw [UInt8.toNat_ofNat']
    omega
  | succ k ih =>
    apply Groups.more _ (ih _)
    rw [UInt8.toNat_ofNat']
    omega

/-- The groups say the lowest bits of the number. -/
theorem magnitude_padded (k n : Nat) : magnitude (padded k n) = n % 128 ^ (k + 1) := by
  induction k generalizing n with
  | zero =>
    rw [padded, magnitude_singleton, UInt8.toNat_ofNat']
    omega
  | succ k ih =>
    rw [padded, magnitude_cons, ih, Nat.pow_succ' (m := 128) (n := k + 1), Nat.mod_mul,
      UInt8.toNat_ofNat']
    omega

/-- The sign of groups is the highest of their bits. -/
theorem isNegative_iff (h : w ≠ []) : isNegative w = true ↔ 128 ^ w.length ≤ 2 * magnitude w := by
  induction w with
  | nil => exact absurd rfl h
  | cons b w ih =>
    have hlow : b.toNat % 128 < 128 := Nat.mod_lt _ (by decide)
    cases w with
    | nil =>
      rw [magnitude_singleton, isNegative, List.getLast?_singleton, Option.any_some,
        decide_eq_true_eq, List.length_singleton]
      omega
    | cons d w =>
      rw [isNegative_cons (List.cons_ne_nil d w), ih (List.cons_ne_nil d w), magnitude_cons b,
        List.length_cons (a := b), List.length_cons, Nat.pow_succ _ (w.length + 1), Nat.pow_succ]
      omega

theorem magnitude_lt (w : List UInt8) : magnitude w < 128 ^ w.length := by
  have hlt := Nat.ofDigits_lt_base_pow_length (b := 128) (l := w.map fun b => b.toNat % 128)
    (by decide) (by
      intro x hx
      obtain ⟨b, -, rfl⟩ := List.mem_map.1 hx
      exact Nat.mod_lt _ (by decide))
  rwa [List.length_map] at hlt

/-- Groups in two's complement spell the number that is nearest to zero among those that differ from
    their magnitude by what they cannot hold. -/
theorem signedValue_eq_bmod (h : w ≠ []) :
    signedValue w = (magnitude w : Int).bmod (128 ^ w.length) := by
  have hlt := magnitude_lt w
  have hpow : (2 : Int) ^ (7 * w.length) = ((128 ^ w.length : Nat) : Int) := by
    rw [pow_mul]
    push_cast
    rfl
  have hsign := isNegative_iff h
  unfold signedValue
  rw [Int.bmod_def, Int.emod_eq_of_lt (by omega) (by omega), hpow]
  split <;> rename_i hneg
  · rw [if_neg]
    have := hsign.1 hneg
    omega
  · rw [if_pos]
    have := hsign.not.1 hneg
    omega

/-- As many groups as there may be hold the bits that there are. -/
theorem two_pow_le (bits : Nat) : 2 ^ bits ≤ 128 ^ groupLimit bits := by
  have hpow : 128 ^ groupLimit bits = 2 ^ (7 * groupLimit bits) := by rw [Nat.pow_mul]
  rw [hpow]
  apply Nat.pow_le_pow_right (by decide)
  unfold groupLimit
  omega

theorem length_padded_limit (h : 0 < bits) (n : Nat) :
    (padded (groupLimit bits - 1) n).length = groupLimit bits := by
  rw [length_padded]
  unfold groupLimit
  omega

/-- Every number in the range has an encoding with as many groups as there may be. -/
theorem exists_unsigned {n : Nat} (h : 0 < bits) (hn : n < 2 ^ bits) :
    ∃ w, w.length = groupLimit bits ∧ Unsigned bits w n := by
  have hlen := length_padded_limit h n
  refine ⟨_, hlen, groups_padded _ _, Nat.le_of_eq hlen, ?_, hn⟩
  rw [magnitude_padded, ← length_padded _ n, hlen]
  exact Nat.mod_eq_of_lt (Nat.lt_of_lt_of_le hn (two_pow_le bits))

theorem exists_signed {n : Int} (h : 0 < bits)
    (hn : -2 ^ (bits - 1) ≤ n ∧ n < 2 ^ (bits - 1)) :
    ∃ w, w.length = groupLimit bits ∧ Signed bits w n := by
  obtain ⟨m, hm⟩ : ∃ m : Nat, (m : Int) = n % (128 ^ groupLimit bits : Nat) :=
    ⟨_, Int.toNat_of_nonneg (Int.emod_nonneg _ (by positivity))⟩
  have hlen := length_padded_limit h m
  refine ⟨_, hlen, groups_padded _ _, Nat.le_of_eq hlen, ?_, hn⟩
  have hlt : m < 128 ^ groupLimit bits := by
    have := Int.emod_lt_of_pos n (b := (128 ^ groupLimit bits : Nat)) (by positivity)
    omega
  have hfits : 2 ^ (bits - 1) * 2 ≤ 128 ^ groupLimit bits := by
    rw [Nat.two_pow_pred_mul_two h]
    exact two_pow_le bits
  have hcast : ((2 ^ (bits - 1) : Nat) : Int) = 2 ^ (bits - 1) := by push_cast; rfl
  rw [signedValue_eq_bmod (padded_ne_nil _ _), magnitude_padded, ← length_padded _ m, hlen,
    Nat.mod_eq_of_lt hlt, hm, Int.emod_bmod]
  exact Int.bmod_eq_of_le (by omega) (by omega)

/-- **Integers.**  The bytes ahead settle what comes of reading an integer, with however many bits
    and wherever in an input: the value of its groups where it is in the range, and else an error at
    the byte that settles it.  So every number in the range is read from each of its encodings; one
    of them has as many groups as there may be, unless there are no bits. -/
theorem integers_read (bits : Nat) (h : c.Valid) :
    (readUnsigned bits c =
        integerOutcome (groupLimit bits) magnitude (fun n => n < 2 ^ bits) c ∧
      readSigned bits c = integerOutcome (groupLimit bits) signedValue
        (fun n => -2 ^ (bits - 1) ≤ n ∧ n < 2 ^ (bits - 1)) c) ∧
    ((∀ w n, w <+: c.ahead → Unsigned bits w n →
        readUnsigned bits c = .ok n (c.advance w.length)) ∧
      ∀ w n, w <+: c.ahead → Signed bits w n →
        readSigned bits c = .ok n (c.advance w.length)) ∧
    (0 < bits →
      (∀ n < 2 ^ bits, ∃ w, w.length = groupLimit bits ∧ Unsigned bits w n) ∧
      ∀ n, -2 ^ (bits - 1) ≤ n ∧ n < 2 ^ (bits - 1) →
        ∃ w, w.length = groupLimit bits ∧ Signed bits w n) ∧
    Cause.integerTooLarge.message = "integer too large" ∧
    Cause.integerTooLong.message = "integer representation too long" ∧
    Cause.unexpectedEnd.message = "unexpected end of input" := by
  refine ⟨⟨readUnsigned_eq h, readSigned_eq h⟩, ⟨?unsigned, ?signed⟩, ?encodings, rfl, rfl, rfl⟩
  case unsigned =>
    intro w n hw hn
    exact (Reads.unsigned bits c n _ h rfl).2 ⟨w, hn, hw, rfl⟩
  case signed =>
    intro w n hw hn
    exact (Reads.signed bits c n _ h rfl).2 ⟨w, hn, hw, rfl⟩
  case encodings =>
    intro hbits
    exact ⟨fun n hn => exists_unsigned hbits hn, fun n hn => exists_signed hbits hn⟩

/-- Five groups behind another byte are a negative number with a sign, and too large without. -/
theorem integers_read_padded :
    readSigned 33 ⟨#[0x00, 0xFF, 0xFF, 0xFF, 0xFF, 0x7F], 1, 0⟩ =
      .ok (-1) ⟨#[0x00, 0xFF, 0xFF, 0xFF, 0xFF, 0x7F], 6, 0⟩ ∧
    readUnsigned 33 ⟨#[0x00, 0xFF, 0xFF, 0xFF, 0xFF, 0x7F], 1, 0⟩ =
      .error ⟨5, .integerTooLarge⟩ ⟨#[0x00, 0xFF, 0xFF, 0xFF, 0xFF, 0x7F], 6, 0⟩ := by
  have hvalid : Cursor.Valid ⟨#[0x00, 0xFF, 0xFF, 0xFF, 0xFF, 0x7F], 1, 0⟩ := by
    show 1 ≤ 6
    decide
  obtain ⟨⟨hunsigned, hsigned⟩, -⟩ := integers_read 33 hvalid
  exact ⟨hsigned.trans rfl, hunsigned.trans rfl⟩

end WasmPack.Binary
