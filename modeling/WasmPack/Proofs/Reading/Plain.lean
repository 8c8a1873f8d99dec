/-
  WasmPack.Proofs.Reading.Plain

  The reading of instructions without a body accepts exactly their production.

  The tables that readings look opcodes up in are lists in the order of the
  opcodes; the grammar gives every operator its opcode.  The first part shows
  that they agree.
-/
import WasmPack.Binary.Instr
import WasmPack.Proofs.Grammar.Instr
import WasmPack.Proofs.Reading.Data

namespace WasmPack.Binary

open Grammar Wasm

variable {depth : Nat}

/-! ## Tables of opcodes -/

/-- What the tables hold, the grammar agrees to. -/
theorem code_of_table (b : UInt8) :
    (∀ op ∈ LoadOp.ofOpcode? b, loadCode op = b.toNat) ∧
      (∀ op ∈ StoreOp.ofOpcode? b, storeCode op = b.toNat) ∧
      (∀ op ∈ NumericOp.ofOpcode? b, numericCode op = some b.toNat) := by
  refine forall_byte (p := fun b => (∀ op ∈ LoadOp.ofOpcode? b, loadCode op = b.toNat) ∧
    (∀ op ∈ StoreOp.ofOpcode? b, storeCode op = b.toNat) ∧
    (∀ op ∈ NumericOp.ofOpcode? b, numericCode op = some b.toNat)) ?_ b
  decide +kernel

theorem load_ofOpcode?_iff {b : UInt8} {op : LoadOp} :
    LoadOp.ofOpcode? b = some op ↔ loadCode op = b.toNat := by
  constructor
  · exact (code_of_table b).1 op
  · intro h
    have hb : b = UInt8.ofNat (loadCode op) := by rw [h, UInt8.ofNat_toNat]
    subst hb
    rcases op with t | ⟨w, s⟩ | ⟨w, s⟩ | s
    · cases t <;> rfl
    · cases w <;> cases s <;> rfl
    · cases w <;> cases s <;> rfl
    · cases s <;> rfl

theorem store_ofOpcode?_iff {b : UInt8} {op : StoreOp} :
    StoreOp.ofOpcode? b = some op ↔ storeCode op = b.toNat := by
  constructor
  · exact (code_of_table b).2.1 op
  · intro h
    have hb : b = UInt8.ofNat (storeCode op) := by rw [h, UInt8.ofNat_toNat]
    subst hb
    rcases op with t | w | w | _
    · cases t <;> rfl
    · cases w <;> rfl
    · cases w <;> rfl
    · rfl

/-- The operators by shape, so that a table is gone through by cases. -/
theorem numeric_ofOpcode?_code {op : NumericOp} {n : Nat} (h : numericCode op = some n) :
    n < 256 ∧ NumericOp.ofOpcode? (UInt8.ofNat n) = some op := by
  rcases op with w | ⟨w, r⟩ | ⟨w, r⟩ | ⟨w, o⟩ | ⟨w, o⟩ | ⟨w, o⟩ | ⟨w, o⟩ | _ | ⟨t, f, s⟩ |
    ⟨t, f, s⟩ | s | ⟨t, f, s⟩ | _ | _ | w | w | w | w | _
  case intRel => cases w <;> rcases r with _ | _ | s | s | s | s <;> (try cases s) <;> cases h <;>
    exact ⟨by decide, by decide +kernel⟩
  case intBinary =>
    cases w <;> rcases o with _ | _ | _ | s | s | _ | _ | _ | _ | s | _ | _ <;> (try cases s) <;>
      cases h <;> exact ⟨by decide, by decide +kernel⟩
  case floatRel => cases w <;> cases r <;> cases h <;> exact ⟨by decide, by decide +kernel⟩
  case intUnary => cases w <;> cases o <;> cases h <;> exact ⟨by decide, by decide +kernel⟩
  case floatUnary => cases w <;> cases o <;> cases h <;> exact ⟨by decide, by decide +kernel⟩
  case floatBinary => cases w <;> cases o <;> cases h <;> exact ⟨by decide, by decide +kernel⟩
  case trunc => cases t <;> cases f <;> cases s <;> cases h <;> exact ⟨by decide, by decide +kernel⟩
  case truncSat => cases h
  case convert =>
    cases t <;> cases f <;> cases s <;> cases h <;> exact ⟨by decide, by decide +kernel⟩
  case widen => cases s <;> cases h <;> exact ⟨by decide, by decide +kernel⟩
  case eqz => cases w <;> cases h <;> exact ⟨by decide, by decide +kernel⟩
  case floatBits => cases w <;> cases h <;> exact ⟨by decide, by decide +kernel⟩
  case floatOfBits => cases w <;> cases h <;> exact ⟨by decide, by decide +kernel⟩
  case extend8 => cases w <;> cases h <;> exact ⟨by decide, by decide +kernel⟩
  case extend16 => cases w <;> cases h <;> exact ⟨by decide, by decide +kernel⟩
  all_goals cases h; exact ⟨by decide, by decide +kernel⟩

theorem numeric_ofOpcode?_iff {b : UInt8} {op : NumericOp} :
    NumericOp.ofOpcode? b = some op ↔ numericCode op = some b.toNat := by
  constructor
  · exact (code_of_table b).2.2 op
  · intro h
    have hop := (numeric_ofOpcode?_code h).2
    rwa [UInt8.ofNat_toNat] at hop

theorem ofSaturating?_iff {n : UInt32} {op : NumericOp} :
    NumericOp.ofSaturating? n = some op ↔ saturatingCode op = some n.toNat := by
  have htable : ∀ k < 8, ∀ op ∈ NumericOp.saturating[k]?, saturatingCode op = some k := by
    decide
  have hsize : NumericOp.saturating.size = 8 := rfl
  unfold NumericOp.ofSaturating?
  constructor
  · intro h
    obtain ⟨hlt, -⟩ := Array.getElem?_eq_some_iff.1 h
    exact htable n.toNat (by omega) op h
  · intro h
    generalize n.toNat = k at h ⊢
    rcases op with w | ⟨w, r⟩ | ⟨w, r⟩ | ⟨w, o⟩ | ⟨w, o⟩ | ⟨w, o⟩ | ⟨w, o⟩ | _ | ⟨t, f, s⟩ |
      ⟨t, f, s⟩ | s | ⟨t, f, s⟩ | _ | _ | w | w | w | w | _
    case truncSat => cases t <;> cases f <;> cases s <;> cases h <;> rfl
    all_goals cases h

/-! ## What follows an opcode -/

theorem fixedValue_eq (w : List UInt8) : littleEndian w = fixedValue w := by
  induction w with
  | nil => rfl
  | cons b w ih =>
    rw [littleEndian, ih, fixedValue, fixedValue, List.map_cons, Nat.ofDigits_cons]

theorem fixedValue_lt {w : List UInt8} {n : Nat} (h : w.length = n) : fixedValue w < 256 ^ n := by
  have hlt := Nat.ofDigits_lt_base_pow_length (b := 256) (l := w.map UInt8.toNat) (by decide) (by
    intro x hx
    obtain ⟨b, -, rfl⟩ := List.mem_map.1 hx
    exact b.toNat_lt)
  rwa [List.length_map, h] at hlt

theorem Reads.memArg : Reads depth readMemArg MemArgForm := by
  refine (Reads.u32.bind fun align => Reads.u32.bind fun offset => Reads.pure _).congr
    fun w arg => ?_
  constructor
  · rintro ⟨u, v, align, rfl, ha, v, z, offset, rfl, ho, rfl, rfl⟩
    rw [List.append_nil]
    exact .mk ha ho
  · rintro ⟨ha, ho⟩
    rename_i u v align offset
    exact ⟨u, v, align, rfl, ha, v, [], offset, (List.append_nil v).symm, ho, rfl, rfl⟩

/-- What the readings by tables accept. -/
def tableShape (opcode : UInt8) : Production Instr := fun w i =>
  (∃ op arg, LoadOp.ofOpcode? opcode = some op ∧ MemArgForm w arg ∧ i = .load op arg) ∨
    (∃ op arg, StoreOp.ofOpcode? opcode = some op ∧ MemArgForm w arg ∧ i = .store op arg) ∨
    (∃ op, NumericOp.ofOpcode? opcode = some op ∧ w = [] ∧ i = .numeric op)

/-- The opcodes of loads, stores and numeric operators lie apart. -/
theorem tables_disjoint (b : UInt8) :
    (LoadOp.ofOpcode? b = none ∨ StoreOp.ofOpcode? b = none) ∧
      (LoadOp.ofOpcode? b = none ∨ NumericOp.ofOpcode? b = none) ∧
      (StoreOp.ofOpcode? b = none ∨ NumericOp.ofOpcode? b = none) := by
  refine forall_byte (p := fun b => (LoadOp.ofOpcode? b = none ∨ StoreOp.ofOpcode? b = none) ∧
    (LoadOp.ofOpcode? b = none ∨ NumericOp.ofOpcode? b = none) ∧
    (StoreOp.ofOpcode? b = none ∨ NumericOp.ofOpcode? b = none)) ?_ b
  decide +kernel

theorem Reads.byTable (start : Nat) (opcode : UInt8) :
    Reads depth (readByTable start opcode) (tableShape opcode) := by
  obtain ⟨hls, hln, hsn⟩ := tables_disjoint opcode
  unfold readByTable tableShape
  split
  · rename_i op hop
    have hs : StoreOp.ofOpcode? opcode = none := hls.resolve_left (by rw [hop]; nofun)
    have hn : NumericOp.ofOpcode? opcode = none := hln.resolve_left (by rw [hop]; nofun)
    exact (Reads.memArg.map (Instr.load op)).congr fun w i => by simp [hop, hs, hn]
  · rename_i hl
    split
    · rename_i op hop
      have hn : NumericOp.ofOpcode? opcode = none := hsn.resolve_left (by rw [hop]; nofun)
      exact (Reads.memArg.map (Instr.store op)).congr fun w i => by simp [hl, hop, hn]
    · rename_i hs
      split
      · rename_i op hop
        exact (Reads.pure (Instr.numeric op)).congr fun w i => by simp [hl, hs, hop, emptyWord]
      · rename_i hn
        exact (Reads.failAt start _).congr fun w i => by simp [hl, hs, hn, noWord]

theorem Reads.saturating (start : Nat) :
    Reads depth (readSaturating start)
      (fun w i => ∃ op n, saturatingCode op = some n.toNat ∧ U32 w n ∧ i = .numeric op) := by
  refine (Reads.u32.bind fun sub =>
    (?_ : Reads depth _ (fun w (i : Instr) => w = [] ∧
      ∃ op, saturatingCode op = some sub.toNat ∧ i = .numeric op))).congr fun w i => ?_
  · simp only [← ofSaturating?_iff]
    split
    · rename_i op hop
      exact (Reads.pure (Instr.numeric op)).congr fun w i => by simp [hop, emptyWord]
    · rename_i hop
      exact (Reads.failAt start _).congr fun w i => by simp [hop, noWord]
  · constructor
    · rintro ⟨u, v, n, rfl, hn, rfl, op, hop, rfl⟩
      exact ⟨op, n, hop, by rwa [List.append_nil], rfl⟩
    · rintro ⟨op, n, hop, hn, rfl⟩
      exact ⟨w, [], n, (List.append_nil w).symm, hn, rfl, op, hop, rfl⟩

/-- What the readings of opcodes that are not structured accept, by cases as they go. -/
def plainShape (opcode : UInt8) : Production Instr := fun w i =>
  match bare? opcode, indexed? opcode with
  | some instr, _ => w = [] ∧ i = instr
  | none, some make => ∃ n, U32 w n ∧ i = make n
  | none, none =>
    match opcode with
    | 0x0E => ∃ u v labels default, w = u ++ v ∧ Vec U32 u labels ∧ U32 v default ∧
        i = .brTable labels default
    | 0x11 => ∃ u v typeIndex table, w = u ++ v ∧ U32 u typeIndex ∧ U32 v table ∧
        i = .callIndirect typeIndex table
    | 0x41 => ∃ n, S32 w n ∧ i = .i32Const n
    | 0x42 => ∃ n, S64 w n ∧ i = .i64Const n
    | 0x43 => w.length = 4 ∧ i = .f32Const (UInt32.ofNat (fixedValue w))
    | 0x44 => w.length = 8 ∧ i = .f64Const (UInt64.ofNat (fixedValue w))
    | 0xFC => ∃ op n, saturatingCode op = some n.toNat ∧ U32 w n ∧ i = .numeric op
    | _ => tableShape opcode w i

theorem Reads.brTable : Reads depth readBrTable (plainShape 0x0E) := by
  refine ((Reads.vec Reads.u32).bind fun labels => Reads.u32.bind fun default =>
    Reads.pure _).congr fun w i => ?_
  constructor
  · rintro ⟨u, v, labels, rfl, hl, v, z, default, rfl, hd, rfl, rfl⟩
    exact ⟨u, v, labels, default, by rw [List.append_nil], hl, hd, rfl⟩
  · rintro ⟨u, v, labels, default, rfl, hl, hd, rfl⟩
    exact ⟨u, v, labels, rfl, hl, v, [], default, (List.append_nil v).symm, hd, rfl, rfl⟩

theorem Reads.callIndirect : Reads depth readCallIndirect (plainShape 0x11) := by
  refine (Reads.u32.bind fun typeIndex => Reads.u32.bind fun table =>
    Reads.pure _).congr fun w i => ?_
  constructor
  · rintro ⟨u, v, typeIndex, rfl, hi, v, z, table, rfl, ht, rfl, rfl⟩
    exact ⟨u, v, typeIndex, table, by rw [List.append_nil], hi, ht, rfl⟩
  · rintro ⟨u, v, typeIndex, table, rfl, hi, ht, rfl⟩
    exact ⟨u, v, typeIndex, rfl, hi, v, [], table, (List.append_nil v).symm, ht, rfl, rfl⟩

/-- The bits of a float constant. -/
theorem Reads.bits {α : Type} (n : Nat) (make : Nat → α) :
    Reads depth ((fun bytes => make (littleEndian bytes)) <$> readBytes n)
      (fun w a => w.length = n ∧ a = make (fixedValue w)) := by
  refine ((Reads.bytes n).map _).congr fun w a => ?_
  constructor
  · rintro ⟨bytes, ⟨rfl, hlen⟩, rfl⟩
    exact ⟨hlen, by rw [fixedValue_eq]⟩
  · rintro ⟨hlen, rfl⟩
    exact ⟨w, ⟨rfl, hlen⟩, by rw [fixedValue_eq]⟩

theorem Reads.plainShape (start : Nat) (opcode : UInt8) :
    Reads depth (readPlain start opcode) (plainShape opcode) := by
  unfold readPlain
  split
  · rename_i instr hb
    exact (Reads.pure instr).congr fun w i => by simp [Binary.plainShape, hb, emptyWord]
  · rename_i make hb hi
    exact (Reads.u32.map make).congr fun w i => by simp [Binary.plainShape, hb, hi]
  · rename_i hb hi
    split
    · exact Reads.brTable
    · exact Reads.callIndirect
    · exact Reads.s32.map Instr.i32Const
    · exact Reads.s64.map Instr.i64Const
    · exact Reads.bits 4 fun n => Instr.f32Const (UInt32.ofNat n)
    · exact Reads.bits 8 fun n => Instr.f64Const (UInt64.ofNat n)
    · exact Reads.saturating start
    · refine (Reads.byTable start opcode).congr fun w i => ?_
      unfold Binary.plainShape
      rw [hb, hi]
      dsimp only
      split
      all_goals first | contradiction | rfl

/-- The opcodes in the tables have no rule of their own. -/
theorem no_rule_of_table (b : UInt8) :
    (LoadOp.ofOpcode? b).isSome ∨ (StoreOp.ofOpcode? b).isSome ∨ (NumericOp.ofOpcode? b).isSome →
      (bare? b).isNone ∧ (indexed? b).isNone ∧
        b ∉ [0x0E, 0x11, 0x41, 0x42, 0x43, 0x44, 0xFC] := by
  refine forall_byte (p := fun b => (LoadOp.ofOpcode? b).isSome ∨ (StoreOp.ofOpcode? b).isSome ∨
    (NumericOp.ofOpcode? b).isSome → (bare? b).isNone ∧ (indexed? b).isNone ∧
      b ∉ [0x0E, 0x11, 0x41, 0x42, 0x43, 0x44, 0xFC]) ?_ b
  decide +kernel

theorem plainShape_of_table {b : UInt8} (h : (LoadOp.ofOpcode? b).isSome ∨
    (StoreOp.ofOpcode? b).isSome ∨ (NumericOp.ofOpcode? b).isSome) (w : List UInt8) (i : Instr) :
    plainShape b w i = tableShape b w i := by
  obtain ⟨hb, hi, hne⟩ := no_rule_of_table b h
  rw [Option.isNone_iff_eq_none] at hb hi
  unfold plainShape
  rw [hb, hi]
  dsimp only
  split <;> first | rfl | exact absurd (by decide) hne

/-- The cases of the readings are the rules of the grammar. -/
theorem plainShape_iff (opcode : UInt8) (w : List UInt8) (i : Instr) :
    plainShape opcode w i ↔ PlainForm (opcode :: w) i := by
  constructor
  · intro h
    unfold plainShape at h
    split at h
    · rename_i instr hb
      obtain ⟨rfl, rfl⟩ := h
      unfold bare? at hb
      split at hb <;> cases hb <;> constructor
    · rename_i make _ hi
      obtain ⟨n, hn, rfl⟩ := h
      unfold indexed? at hi
      split at hi <;> cases hi <;> constructor <;> exact hn
    -- What is left are the opcodes with contents of their own, and the tables.
    · split at h
      · obtain ⟨u, v, labels, default, rfl, hl, hd, rfl⟩ := h
        exact .brTable hl hd
      · obtain ⟨u, v, typeIndex, table, rfl, hi, ht, rfl⟩ := h
        exact .callIndirect hi ht
      · obtain ⟨n, hn, rfl⟩ := h
        exact .i32Const hn
      · obtain ⟨n, hn, rfl⟩ := h
        exact .i64Const hn
      · obtain ⟨hlen, rfl⟩ := h
        refine .f32Const hlen ?_
        rw [UInt32.toNat_ofNat_of_lt' (fixedValue_lt hlen)]
      · obtain ⟨hlen, rfl⟩ := h
        refine .f64Const hlen ?_
        rw [UInt64.toNat_ofNat_of_lt' (fixedValue_lt hlen)]
      · obtain ⟨op, n, hop, hn, rfl⟩ := h
        exact .saturating hop hn
      · obtain ⟨op, arg, hop, ha, rfl⟩ | ⟨op, arg, hop, ha, rfl⟩ | ⟨op, hop, rfl, rfl⟩ := h
        · exact .load (load_ofOpcode?_iff.1 hop) ha
        · exact .store (store_ofOpcode?_iff.1 hop) ha
        · exact .numeric (numeric_ofOpcode?_iff.1 hop)
  -- Only the tables need to know that no earlier case takes their opcodes.
  · intro h
    cases h with
    | load hb ha =>
      have hop := load_ofOpcode?_iff.2 hb
      rw [plainShape_of_table (.inl (Option.isSome_of_eq_some hop))]
      exact .inl ⟨_, _, hop, ha, rfl⟩
    | store hb ha =>
      have hop := store_ofOpcode?_iff.2 hb
      rw [plainShape_of_table (.inr (.inl (Option.isSome_of_eq_some hop)))]
      exact .inr (.inl ⟨_, _, hop, ha, rfl⟩)
    | numeric hb =>
      have hop := numeric_ofOpcode?_iff.2 hb
      rw [plainShape_of_table (.inr (.inr (Option.isSome_of_eq_some hop)))]
      exact .inr (.inr ⟨_, hop, rfl, rfl⟩)
    | unreachable | nop | ret | drop | select => exact ⟨rfl, rfl⟩
    | br hn | brIf hn | call hn | localGet hn | localSet hn | localTee hn | globalGet hn
    | globalSet hn | memorySize hn | memoryGrow hn => exact ⟨_, hn, rfl⟩
    | i32Const hn | i64Const hn => exact ⟨_, hn, rfl⟩
    | brTable hl hd => exact ⟨_, _, _, _, rfl, hl, hd, rfl⟩
    | callIndirect hi ht => exact ⟨_, _, _, _, rfl, hi, ht, rfl⟩
    | f32Const hlen hn => exact ⟨hlen, by rw [hn, UInt32.ofNat_toNat]⟩
    | f64Const hlen hn => exact ⟨hlen, by rw [hn, UInt64.ofNat_toNat]⟩
    | saturating hop hn => exact ⟨_, _, hop, hn, rfl⟩

/-- What follows the opcode of an instruction without a body. -/
theorem Reads.plain (start : Nat) (opcode : UInt8) :
    Reads depth (readPlain start opcode) (fun w i => PlainForm (opcode :: w) i) :=
  (Reads.plainShape start opcode).congr (plainShape_iff opcode)

end WasmPack.Binary
