/-
  WasmPack.Proofs.Reading.Data

  The readings of integers, vectors, names and types accept exactly their
  productions.
-/
import WasmPack.Binary.Types
import WasmPack.Proofs.Reading.Basic
import Mathlib.Data.Nat.Digits.Lemmas

namespace WasmPack.Binary

open Grammar Wasm

variable {depth : Nat}

/-! ## Groups of seven bits -/

/-- A property of bytes that holds of the first 256 numbers holds of every byte. -/
theorem forall_byte {p : UInt8 → Prop} (h : ∀ n < 256, p (UInt8.ofNat n)) (b : UInt8) : p b := by
  have hb := h b.toNat b.toNat_lt
  rwa [UInt8.ofNat_toNat] at hb

/-- What the bits of a byte say, for all bytes at once. -/
theorem bits_of_byte (b : UInt8) : (b &&& 0x7F).toNat = b.toNat % 128 ∧
    (b &&& 0x80 = 0 ↔ b.toNat < 128) ∧ (b &&& 0x40 ≠ 0 ↔ 64 ≤ b.toNat % 128) :=
  forall_byte (p := fun b => (b &&& 0x7F).toNat = b.toNat % 128 ∧
    (b &&& 0x80 = 0 ↔ b.toNat < 128) ∧ (b &&& 0x40 ≠ 0 ↔ 64 ≤ b.toNat % 128)) (by decide +kernel) b

theorem toNat_low_bits (b : UInt8) : (b &&& 0x7F).toNat = b.toNat % 128 := (bits_of_byte b).1

theorem high_bit_eq_zero_iff (b : UInt8) : b &&& 0x80 = 0 ↔ b.toNat < 128 := (bits_of_byte b).2.1

theorem sign_bit_ne_zero_iff (b : UInt8) : b &&& 0x40 ≠ 0 ↔ 64 ≤ b.toNat % 128 :=
  (bits_of_byte b).2.2

theorem capacity_eq (bits : Nat) : capacity bits = 2 ^ bits := Nat.one_shiftLeft bits

/-- What a run of groups says. -/
def groupsOf (w : List UInt8) : Binary.Groups := ⟨magnitude w, 7 * w.length, isNegative w⟩

theorem Groups.ne_nil {w : List UInt8} (h : Grammar.Groups w) : w ≠ [] := by
  cases h <;> exact List.cons_ne_nil _ _

theorem magnitude_singleton (b : UInt8) : magnitude [b] = b.toNat % 128 := by
  simp [magnitude]

theorem magnitude_cons (b : UInt8) (w : List UInt8) :
    magnitude (b :: w) = b.toNat % 128 + 128 * magnitude w := by
  simp [magnitude, Nat.ofDigits_cons]

theorem isNegative_cons {b : UInt8} {w : List UInt8} (h : w ≠ []) :
    isNegative (b :: w) = isNegative w := by
  rw [isNegative, isNegative, List.getLast?_cons, List.getLast?_eq_some_getLast h]
  rfl

/-- One group with the high bit clear says its low bits. -/
theorem groupsOf_singleton (b : UInt8) :
    groupsOf [b] = ⟨(b &&& 0x7F).toNat, 7, decide (b &&& 0x40 ≠ 0)⟩ := by
  have hs : isNegative [b] = decide (b &&& 0x40 ≠ 0) := by
    rw [decide_eq_decide.2 (sign_bit_ne_zero_iff b)]
    rfl
  rw [groupsOf, magnitude_singleton, toNat_low_bits, hs]
  rfl

/-- A group in front of others is the lowest. -/
theorem groupsOf_cons {b : UInt8} {w : List UInt8} (h : w ≠ []) :
    groupsOf (b :: w) = ⟨(b &&& 0x7F).toNat + 128 * (groupsOf w).value,
      (groupsOf w).span + 7, (groupsOf w).negative⟩ := by
  rw [groupsOf, magnitude_cons, isNegative_cons h, toNat_low_bits, List.length_cons, Nat.mul_succ]
  rfl

/-- A limited run of groups is read as what it says. -/
theorem Reads.groups (left : Nat) :
    Reads depth (readGroups left)
      (fun w g => Grammar.Groups w ∧ w.length ≤ left ∧ g = groupsOf w) := by
  induction left with
  | zero =>
    refine (Reads.fail .integerTooLong).congr fun w g => ⟨False.elim, ?_⟩
    rintro ⟨hw, hlen, -⟩
    exact Groups.ne_nil hw (List.eq_nil_of_length_eq_zero (Nat.le_zero.1 hlen))
  | succ left ih =>
    refine (Reads.byte.bind fun b => Reads.ite (fun _ => Reads.pure _) fun _ =>
      ih.bind fun rest => Reads.pure _).congr fun w g => ?_
    constructor
    · rintro ⟨u, v, b, rfl, rfl,
        (⟨hb, rfl, rfl⟩ | ⟨hb, v, t, rest, rfl, ⟨hw, hlen, rfl⟩, rfl, rfl⟩)⟩
      · refine ⟨.last ((high_bit_eq_zero_iff b).1 hb), Nat.succ_le_succ (Nat.zero_le left), ?_⟩
        exact (groupsOf_singleton b).symm
      · rw [high_bit_eq_zero_iff, Nat.not_lt] at hb
        rw [List.append_nil, List.singleton_append]
        exact ⟨.more hb hw, Nat.succ_le_succ hlen, (groupsOf_cons (Groups.ne_nil hw)).symm⟩
    · rintro ⟨hw, hlen, rfl⟩
      cases hw with
      | @last b hb =>
        exact ⟨[b], [], b, rfl, rfl, .inl ⟨(high_bit_eq_zero_iff b).2 hb, rfl,
          groupsOf_singleton b⟩⟩
      | @more b v hb hv =>
        have hb' : ¬(b &&& 0x80 = 0) := by
          rw [high_bit_eq_zero_iff]
          omega
        exact ⟨[b], v, b, rfl, rfl, .inr ⟨hb', v, [], groupsOf v, (List.append_nil v).symm,
          ⟨hv, Nat.le_of_succ_le_succ hlen, rfl⟩, rfl, groupsOf_cons (Groups.ne_nil hv)⟩⟩

/-! ## Integers -/

theorem Reads.failBehind {α : Type} (cause : Cause) :
    Reads depth (failBehind cause : Decode α) noWord :=
  Reads.offset_bind fun _ => Reads.failAt _ cause

theorem Reads.unsigned (bits : Nat) : Reads depth (readUnsigned bits) (Unsigned bits) := by
  refine ((Reads.groups (maxGroups bits)).bind fun g =>
    Reads.ite (fun _ => Reads.pure g.value) fun _ => Reads.failBehind _).congr fun w n => ?_
  constructor
  · rintro ⟨u, v, g, rfl, ⟨hu, hlen, rfl⟩, (⟨hlt, rfl, rfl⟩ | ⟨-, ⟨⟩⟩)⟩
    rw [List.append_nil]
    rw [capacity_eq] at hlt
    exact ⟨hu, hlen, rfl, hlt⟩
  · rintro ⟨hw, hlen, rfl, hlt⟩
    rw [← capacity_eq] at hlt
    exact ⟨w, [], groupsOf w, (List.append_nil w).symm, ⟨hw, hlen, rfl⟩, .inl ⟨hlt, rfl, rfl⟩⟩

theorem toInt_groupsOf (w : List UInt8) : (groupsOf w).toInt = signedValue w := by
  unfold Groups.toInt signedValue groupsOf
  rw [capacity_eq]
  push_cast
  rfl

theorem Reads.signed (bits : Nat) : Reads depth (readSigned bits) (Signed bits) := by
  have hcap : ((capacity (bits - 1) : Nat) : Int) = 2 ^ (bits - 1) := by
    rw [capacity_eq]
    push_cast
    rfl
  refine ((Reads.groups (maxGroups bits)).bind fun g =>
    Reads.ite (fun _ => Reads.pure g.toInt) fun _ => Reads.failBehind _).congr fun w n => ?_
  rw [hcap]
  constructor
  · rintro ⟨u, v, g, rfl, ⟨hu, hlen, rfl⟩, (⟨hin, rfl, rfl⟩ | ⟨-, ⟨⟩⟩)⟩
    rw [List.append_nil]
    exact ⟨hu, hlen, (toInt_groupsOf u).symm, hin⟩
  · rintro ⟨hw, hlen, rfl, hin⟩
    rw [← toInt_groupsOf] at hin ⊢
    exact ⟨w, [], groupsOf w, (List.append_nil w).symm, ⟨hw, hlen, rfl⟩, .inl ⟨hin, rfl, rfl⟩⟩

theorem Reads.u32 : Reads depth readU32 U32 := by
  refine ((Reads.unsigned 32).map UInt32.ofNat).congr fun w n => ?_
  constructor
  · rintro ⟨a, h, rfl⟩
    have hlt : a < 2 ^ 32 := h.2.2.2
    rw [U32, UInt32.toNat_ofNat_of_lt' hlt]
    exact h
  · intro h
    exact ⟨n.toNat, h, UInt32.ofNat_toNat.symm⟩

theorem Reads.s7 : Reads depth readS7 S7 := Reads.signed 7

theorem Reads.s33 : Reads depth readS33 S33 := Reads.signed 33

theorem Reads.s32 : Reads depth readS32 S32 := by
  refine ((Reads.signed 32).map Int32.ofInt).congr fun w n => ?_
  constructor
  · rintro ⟨a, h, rfl⟩
    have hlo : -2 ^ 31 ≤ a := h.2.2.2.1
    have hhi : a < 2 ^ 31 := h.2.2.2.2
    rw [S32, Int32.toInt_ofInt_of_le hlo hhi]
    exact h
  · intro h
    exact ⟨n.toInt, h, Int32.ofInt_toInt n |>.symm⟩

theorem Reads.s64 : Reads depth readS64 S64 := by
  refine ((Reads.signed 64).map Int64.ofInt).congr fun w n => ?_
  constructor
  · rintro ⟨a, h, rfl⟩
    have hlo : -2 ^ 63 ≤ a := h.2.2.2.1
    have hhi : a < 2 ^ 63 := h.2.2.2.2
    rw [S64, Int64.toInt_ofInt_of_le hlo hhi]
    exact h
  · intro h
    exact ⟨n.toInt, h, Int64.ofInt_toInt n |>.symm⟩

/-! ## Vectors and names -/

theorem Reads.vec {α : Type} {item : Decode α} {G : Production α} (hi : Reads depth item G) :
    Reads depth (readVec item) (Vec G) := by
  refine (Reads.u32.bind fun count => Reads.items hi count.toNat []).congr fun w as => ?_
  constructor
  · rintro ⟨u, v, n, rfl, hn, rest, hr, hlen, rfl⟩
    exact ⟨u, v, n, rfl, hn, hr, hlen.symm⟩
  · rintro ⟨u, v, n, rfl, hn, hr, hlen⟩
    exact ⟨u, v, n, rfl, hn, as, hr, hlen.symm, rfl⟩

/-- Bytes are the UTF-8 text of a string exactly if the library reads them as that string. -/
theorem fromUTF8?_eq_some_iff (bytes : List UInt8) (s : String) :
    String.fromUTF8? ⟨bytes.toArray⟩ = some s ↔ Utf8 bytes s := by
  unfold String.fromUTF8? Utf8
  constructor
  · intro h
    split at h
    · cases h
      rfl
    · cases h
  · rintro rfl
    have hb : (⟨s.toUTF8.data.toList.toArray⟩ : ByteArray) = s.toByteArray := by
      rw [Array.toArray_toList]
      rfl
    rw [hb, dif_pos s.isValidUTF8]
    rfl

theorem Reads.name : Reads depth readName Name := by
  refine (Reads.u32.bind fun length => Reads.offset_bind fun start =>
    (Reads.bytes length.toNat).bind fun bytes =>
      (?_ : Reads depth _ (fun w s => w = [] ∧ Utf8 bytes s))).congr fun w s => ?_
  · split
    · rename_i name h
      refine (Reads.pure name).congr fun w s => and_congr_right fun _ => ?_
      rw [← fromUTF8?_eq_some_iff, h, Option.some.injEq, eq_comm]
    · rename_i h
      refine (Reads.failAt start .malformedUtf8).congr fun w s => ⟨False.elim, ?_⟩
      rintro ⟨-, hs⟩
      rw [← fromUTF8?_eq_some_iff, h] at hs
      cases hs
  · constructor
    · rintro ⟨u, v, n, rfl, hn, v, t, bytes, rfl, ⟨rfl, hlen⟩, rfl, hs⟩
      exact ⟨u, v, n, by rw [List.append_nil], hn, hs, hlen.symm⟩
    · rintro ⟨u, v, n, rfl, hn, hs, hlen⟩
      exact ⟨u, v, n, rfl, hn, v, [], v, (List.append_nil v).symm, ⟨rfl, hlen.symm⟩, rfl, hs⟩

/-! ## Types -/

theorem valueType?_eq_some_iff (tag : Int) (t : ValueType) :
    valueType? tag = some t ↔ tag = valueTag t := by
  unfold valueType?
  cases t <;> simp only [valueTag] <;> split_ifs <;> simp <;> omega

theorem Reads.valueType : Reads depth readValueType ValueTypeForm := by
  refine (Reads.offset_bind fun start => Reads.s7.bind fun tag =>
    (?_ : Reads depth _ (fun w t => w = [] ∧ valueType? tag = some t))).congr fun w t => ?_
  · split
    · rename_i t h
      refine (Reads.pure t).congr fun w t' => and_congr_right fun _ => ?_
      rw [h, Option.some.injEq, eq_comm]
    · rename_i h
      refine (Reads.failAt start _).congr fun w t' => ⟨False.elim, ?_⟩
      rintro ⟨-, ht⟩
      rw [h] at ht
      cases ht
  · constructor
    · rintro ⟨u, v, tag, rfl, hr, rfl, ht⟩
      rw [List.append_nil]
      rw [valueType?_eq_some_iff] at ht
      subst ht
      exact hr
    · intro h
      exact ⟨w, [], valueTag t, (List.append_nil w).symm, h, rfl,
        (valueType?_eq_some_iff _ t).2 rfl⟩

theorem S33.range {w : List UInt8} {n : Int} (h : S33 w n) : -2 ^ 32 ≤ n ∧ n < 2 ^ 32 := h.2.2.2

theorem Reads.blockType : Reads depth readBlockType BlockTypeForm := by
  have hcap : ((capacity 32 : Nat) : Int) = 2 ^ 32 := by
    rw [capacity_eq]
    rfl
  -- What is read is a number; which type it stands for is settled apart from the reading.
  refine (Reads.offset_bind fun start => Reads.s33.bind fun raw =>
    (?_ : Reads depth _ (fun w (t : BlockType) => w = [] ∧
      ((raw = emptyTag ∧ t = .empty) ∨
        (raw ≠ emptyTag ∧ ((∃ v, raw = valueTag v ∧ t = .value v) ∨
          (0 ≤ raw ∧ raw < 2 ^ 32 ∧ t = .func (UInt32.ofNat raw.toNat)))))))).congr fun w t => ?_
  · by_cases he : raw = emptyTag
    · rw [if_pos he]
      refine (Reads.pure BlockType.empty).congr fun w t => and_congr_right fun _ => ?_
      simp [he]
    · rw [if_neg he]
      split
      · rename_i v hv
        rw [valueType?_eq_some_iff] at hv
        refine (Reads.pure (BlockType.value v)).congr fun w t => and_congr_right fun _ => ?_
        constructor
        · rintro rfl
          exact .inr ⟨he, .inl ⟨v, hv, rfl⟩⟩
        · rintro (⟨h, -⟩ | ⟨-, ⟨v', hv', rfl⟩ | ⟨h, -⟩⟩)
          · exact absurd h he
          · have hvv : valueTag v = valueTag v' := by rw [← hv, ← hv']
            cases v <;> cases v' <;> first | rfl | exact absurd hvv (by decide)
          · rw [hv] at h
            cases v <;> exact absurd h (by decide)
      -- Neither empty nor a value type: the number has to be the index of a type.
      · rename_i hnone
        have hnot : ∀ v, raw ≠ valueTag v := by
          intro v hv
          rw [← valueType?_eq_some_iff, hnone] at hv
          cases hv
        rw [hcap]
        refine (Reads.ite (fun _ => Reads.failAt start .negativeTypeIndex) fun _ =>
          Reads.ite (fun _ => Reads.pure (BlockType.func (UInt32.ofNat raw.toNat))) fun _ =>
            Reads.failAt start .integerTooLarge).congr fun w t => ?_
        constructor
        · rintro (⟨-, ⟨⟩⟩ | ⟨hneg, ⟨hlt, rfl, rfl⟩ | ⟨-, ⟨⟩⟩⟩)
          exact ⟨rfl, .inr ⟨he, .inr ⟨Int.not_lt.1 hneg, hlt, rfl⟩⟩⟩
        · rintro ⟨rfl, ⟨h, -⟩ | ⟨-, ⟨v, hv, -⟩ | ⟨hpos, hlt, rfl⟩⟩⟩
          · exact absurd h he
          · exact absurd hv (hnot v)
          · exact .inr ⟨Int.not_lt.2 hpos, .inl ⟨hlt, rfl, rfl⟩⟩
  · constructor
    · rintro ⟨u, v, raw, rfl, hr, rfl, (⟨rfl, rfl⟩ | ⟨-, ⟨v, rfl, rfl⟩ | ⟨hpos, hlt, rfl⟩⟩)⟩
      · rw [List.append_nil]
        exact .empty hr
      · rw [List.append_nil]
        exact .value hr
      · rw [List.append_nil]
        have hn : raw.toNat < 2 ^ 32 := by
          rw [Int.toNat_lt hpos]
          exact hlt
        refine .func ?_
        rw [UInt32.toNat_ofNat_of_lt' hn, Int.toNat_of_nonneg hpos]
        exact hr
    · intro h
      refine ⟨w, [], ?_⟩
      cases h with
      | empty h => exact ⟨-0x40, (List.append_nil w).symm, h, rfl, .inl ⟨rfl, rfl⟩⟩
      | @value _ v h =>
        refine ⟨valueTag v, (List.append_nil w).symm, h, rfl, .inr ⟨?_, .inl ⟨v, rfl, rfl⟩⟩⟩
        cases v <;> decide
      | @func _ i h =>
        refine ⟨i.toNat, (List.append_nil w).symm, h, rfl,
          .inr ⟨?_, .inr ⟨?_, (S33.range h).2, ?_⟩⟩⟩
        · unfold emptyTag
          omega
        · omega
        · rw [Int.toNat_natCast, UInt32.ofNat_toNat]

/-- A reading that goes on only behind one tag. -/
theorem Reads.tag {α : Type} (start : Nat) (cause : Cause) (tag : Int) {next : Unit → Decode α}
    {G : Production α} (hn : Reads depth (next ()) G) :
    Reads depth (readS7 >>= fun raw =>
      if raw ≠ tag then Binary.failAt start cause >>= next else next ())
      (fun w a => ∃ u v, w = u ++ v ∧ S7 u tag ∧ G v a) := by
  refine (Reads.s7.bind fun raw => Reads.guard start cause hn).congr fun w a => ?_
  constructor
  · rintro ⟨u, v, raw, rfl, hr, htag, hv⟩
    rw [ne_eq, not_not] at htag
    exact ⟨u, v, rfl, htag ▸ hr, hv⟩
  · rintro ⟨u, v, rfl, hu, hv⟩
    exact ⟨u, v, tag, rfl, hu, not_not.2 rfl, hv⟩

theorem Reads.funcType : Reads depth readFuncType FuncTypeForm := by
  refine (Reads.offset_bind fun start => Reads.tag start .malformedFuncType funcTag
    ((Reads.vec Reads.valueType).bind fun params => (Reads.vec Reads.valueType).bind fun results =>
      Reads.pure _)).congr fun w t => ?_
  constructor
  · rintro ⟨t, v, rfl, ht, u, v, params, rfl, hp, v, z, results, rfl, hr, rfl, rfl⟩
    rw [List.append_nil, ← List.append_assoc]
    exact .mk ht hp hr
  · rintro ⟨ht, hp, hr⟩
    rename_i t u v params results
    exact ⟨t, u ++ v, List.append_assoc t u v, ht, u, v, params, rfl, hp, v, [], results,
      (List.append_nil v).symm, hr, rfl, rfl⟩

theorem Reads.limits : Reads depth readLimits LimitsForm := by
  refine (Reads.offset_bind fun start => Reads.byte.bind fun b =>
    (?_ : Reads depth _ (fun w l => LimitsForm (b :: w) l))).congr fun w l => ?_
  · split
    · refine (Reads.u32.bind fun min => Reads.pure _).congr fun w l => ?_
      constructor
      · rintro ⟨u, v, min, rfl, hmin, rfl, rfl⟩
        rw [List.append_nil]
        exact .open hmin
      · rintro ⟨hmin⟩
        exact ⟨w, [], _, (List.append_nil w).symm, hmin, rfl, rfl⟩
    · refine (Reads.u32.bind fun min => Reads.u32.bind fun max => Reads.pure _).congr fun w l => ?_
      constructor
      · rintro ⟨u, v, min, rfl, hmin, v, z, max, rfl, hmax, rfl, rfl⟩
        rw [List.append_nil]
        exact .closed hmin hmax
      · intro h
        cases h with
        | @closed u v min max hmin hmax =>
        exact ⟨u, v, min, rfl, hmin, v, [], max, (List.append_nil v).symm, hmax, rfl, rfl⟩
    · rename_i h0 h1
      refine (Reads.failAt start .malformedLimits).congr fun w l => ⟨False.elim, ?_⟩
      intro h
      cases h with
      | «open» => exact h0 rfl
      | closed => exact h1 rfl
  · constructor
    · rintro ⟨u, v, b, rfl, rfl, h⟩
      exact h
    · intro h
      cases h with
      | @«open» u min hmin => exact ⟨[0x00], u, 0x00, rfl, rfl, .open hmin⟩
      | @closed u v min max hmin hmax => exact ⟨[0x01], u ++ v, 0x01, rfl, rfl, .closed hmin hmax⟩

theorem Reads.tableType : Reads depth readTableType TableTypeForm := by
  refine (Reads.offset_bind fun start => Reads.tag start .malformedElemType funcRefTag
    (Reads.limits.bind fun limits => Reads.pure _)).congr fun w t => ?_
  constructor
  · rintro ⟨t, v, rfl, ht, u, z, limits, rfl, hl, rfl, rfl⟩
    rw [List.append_nil]
    exact .mk ht hl
  · rintro ⟨ht, hl⟩
    rename_i t u limits
    exact ⟨t, u, rfl, ht, u, [], limits, (List.append_nil u).symm, hl, rfl, rfl⟩

theorem Reads.globalType : Reads depth readGlobalType GlobalTypeForm := by
  refine (Reads.valueType.bind fun type => Reads.offset_bind fun start => Reads.byte.bind fun b =>
    (?_ : Reads depth _ (fun w (t : GlobalType) => w = [] ∧
      ((b = 0x00 ∧ t = ⟨type, false⟩) ∨ (b = 0x01 ∧ t = ⟨type, true⟩))))).congr fun w t => ?_
  · split
    · exact (Reads.pure _).congr fun w t => by simp [emptyWord]
    · exact (Reads.pure _).congr fun w t => by simp [emptyWord]
    · rename_i h0 h1
      refine (Reads.failAt start .malformedGlobalType).congr fun w t => ⟨False.elim, ?_⟩
      rintro ⟨-, ⟨h, -⟩ | ⟨h, -⟩⟩
      · exact h0 h
      · exact h1 h
  · constructor
    · rintro ⟨u, v, type, rfl, ht, v, z, b, rfl, rfl, rfl, (⟨rfl, rfl⟩ | ⟨rfl, rfl⟩)⟩
      · exact .const ht
      · exact .var ht
    · intro h
      cases h with
      | @const u type h =>
        exact ⟨u, [0x00], type, rfl, h, [0x00], [], 0x00, rfl, rfl, rfl, .inl ⟨rfl, rfl⟩⟩
      | @var u type h =>
        exact ⟨u, [0x01], type, rfl, h, [0x01], [], 0x01, rfl, rfl, rfl, .inr ⟨rfl, rfl⟩⟩

end WasmPack.Binary
