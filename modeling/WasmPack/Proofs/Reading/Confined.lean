/-
  WasmPack.Proofs.Reading.Confined

  Readings stay in their input, and their errors stand in what they went over.

  `Confined` is a triple: from a cursor in the input, at or behind one position,
  the reading comes to a cursor in the same input, behind a success at or behind
  another position, and an error is as required where the cursor is left.  An
  offset that is taken before bytes are read lies in front of the position then,
  so an error may be put there later on; the two positions keep track.  Each
  operation on cursors has its lemma, and so has each reading made of them.
-/
import WasmPack.Binary.Instr
import WasmPack.Proofs.Reading.Basic

namespace WasmPack.Binary

open Wasm

/-! ## Cursors in an input, and errors -/

/-- The cursor is one in the input, and no more structured instructions are open than may be. -/
structure Cursor.Inside (c : Cursor) (input : Array UInt8) : Prop where
  input_eq : c.input = input
  pos_le : c.pos ≤ input.size
  depth_le : c.depth ≤ maxNesting

namespace Cursor.Inside

variable {input : Array UInt8} {c : Cursor}

theorem valid (hc : c.Inside input) : c.Valid := by
  unfold Valid
  rw [hc.input_eq]
  exact hc.pos_le

theorem start (input : Array UInt8) : Cursor.Inside { input } input :=
  ⟨rfl, Nat.zero_le _, Nat.zero_le _⟩

/-- The position may be anywhere up to the end of the input. -/
theorem move (hc : c.Inside input) {pos : Nat} (h : pos ≤ c.input.size) :
    Cursor.Inside { c with pos } input :=
  ⟨hc.input_eq, hc.input_eq ▸ h, hc.depth_le⟩

end Cursor.Inside

/-- The error stands in what the cursor has gone over.  One that is found behind a byte stands in
    front of the position, so there is a byte to go back by. -/
structure DecodeError.Within (e : DecodeError) (c : Cursor) : Prop where
  offset_le : e.offset ≤ c.pos
  offset_lt : e.cause = .integerTooLarge → e.offset < c.pos
  /-- An `end` is missed at the byte in its place, or where the input ends. -/
  offset_lt_or : e.cause = .endExpected → e.offset < c.pos ∨ c.pos = c.input.size

theorem DecodeError.Within.of_lt {e : DecodeError} {c : Cursor} (h : e.offset < c.pos) :
    e.Within c :=
  ⟨Nat.le_of_lt h, fun _ => h, fun _ => .inl h⟩

/-- An error that is not found behind a byte may stand at the position itself. -/
theorem DecodeError.Within.of_le {e : DecodeError} {c : Cursor} (h : e.offset ≤ c.pos)
    (hlarge : e.cause ≠ .integerTooLarge) (hend : e.cause ≠ .endExpected) : e.Within c :=
  ⟨h, (absurd · hlarge), (absurd · hend)⟩

open DecodeError (Within)

variable {α β σ : Type} {input : Array UInt8} {E E' : DecodeError → Cursor → Prop}
  {n n' k k' l start : Nat} {c : Cursor} {cause : Cause} {x : Decode α}

/-- What may come of a reading in the input: a success at or behind `k`, or an error as required. -/
def Lands (input : Array UInt8) (E : DecodeError → Cursor → Prop) (k : Nat) :
    EStateM.Result DecodeError Cursor α → Prop
  | .ok _ m => m.Inside input ∧ k ≤ m.pos
  | .error e m => m.Inside input ∧ E e m

theorem Lands.imp {r : EStateM.Result DecodeError Cursor α} (h : Lands input E k r) (hk : k' ≤ k)
    (hE : ∀ e m, E e m → E' e m) : Lands input E' k' r := by
  cases r with
  | ok a m => exact ⟨h.1, Nat.le_trans hk h.2⟩
  | error e m => exact ⟨h.1, hE e m h.2⟩

/-- From at or behind `n`, the reading stays in the input, succeeds at or behind `k`, and has errors
    as required. -/
def Confined (input : Array UInt8) (E : DecodeError → Cursor → Prop) (n k : Nat) (x : Decode α) :
    Prop :=
  ∀ c, c.Inside input → n ≤ c.pos → Lands input E k (x c)

namespace Confined

theorem of_ok {a : α} {m : Cursor} (hx : Confined input E n k x) (hc : c.Inside input)
    (hpos : n ≤ c.pos) (h : x c = .ok a m) : m.Inside input ∧ k ≤ m.pos := by
  have hlands := hx c hc hpos
  rw [h] at hlands
  exact hlands

theorem of_error {e : DecodeError} {m : Cursor} (hx : Confined input E n k x) (hc : c.Inside input)
    (hpos : n ≤ c.pos) (h : x c = .error e m) : m.Inside input ∧ E e m := by
  have hlands := hx c hc hpos
  rw [h] at hlands
  exact hlands

/-! ## Readings made of others -/

theorem mono (hx : Confined input E n k x) (hn : n ≤ n') (hk : k' ≤ k) :
    Confined input E n' k' x :=
  fun c hc hpos => (hx c hc (Nat.le_trans hn hpos)).imp hk fun _ _ => id

theorem weaken (hx : Confined input E n k x) (hE : ∀ e m, E e m → E' e m) :
    Confined input E' n k x :=
  fun c hc hpos => (hx c hc hpos).imp (Nat.le_refl k) hE

/-- A reading that consumes does not go back. -/
theorem stay (hx : Confined input E n (n + k) x) : Confined input E n n x :=
  hx.mono (Nat.le_refl n) (Nat.le_add_right n k)

theorem pure (a : α) : Confined input E n n (pure a : Decode α) :=
  fun _ hc hpos => ⟨hc, hpos⟩

theorem bind {f : α → Decode β} (hx : Confined input E n k x)
    (hf : ∀ a, Confined input E k l (f a)) : Confined input E n l (x >>= f) := by
  intro c hc hpos
  cases hr : x c with
  | ok a m =>
    obtain ⟨hm, hle⟩ := hx.of_ok hc hpos hr
    rw [bind_of_ok hr]
    exact hf a m hm hle
  | error e m =>
    rw [bind_of_error hr]
    exact hx.of_error hc hpos hr

theorem map (g : α → β) (hx : Confined input E n k x) :
    Confined input E n k (g <$> x) := by
  rw [map_eq_pure_bind]
  exact hx.bind fun a => .pure (g a)

/-- A reading that is repeated goes on from where its turns leave off. -/
theorem iterate {step : σ → Decode (σ ⊕ α)} (hadv : AdvancesOn step)
    (hstep : ∀ s, Confined input E n n (step s)) (s : σ) :
    Confined input E n n (Binary.iterate step hadv s) := by
  intro c hc hpos
  -- The induction is that of the repetition, on the bytes that are left.
  induction s, c using iterate.induct step hadv with
  | case1 s c s' m hr ih =>
    obtain ⟨hm, hle⟩ := (hstep s).of_ok hc hpos hr
    rw [iterate_of_inl hadv hr]
    exact ih hm hle
  | case2 s c a m hr =>
    rw [iterate_of_inr hadv hr]
    exact (hstep s).of_ok hc hpos hr
  | case3 s c e m hr =>
    rw [iterate_of_error hadv hr]
    exact (hstep s).of_error hc hpos hr

/-! ## Operations on cursors -/

/-- An offset is the position that it was taken at, and the rest is read from there. -/
theorem offset_bind {f : Nat → Decode α} (hf : ∀ p, Confined input E p (p + k) (f p)) :
    Confined input E n (n + k) (offset >>= f) := by
  intro c hc hpos
  exact (hf c.pos).mono (Nat.le_refl _) (Nat.add_le_add_right hpos k) c hc (Nat.le_refl _)

theorem offset : Confined input E n n offset := fun _ hc hpos => ⟨hc, hpos⟩

theorem peek : Confined input E n n peek := fun _ hc hpos => ⟨hc, hpos⟩

theorem atEnd : Confined input E n n atEnd := fun _ hc hpos => ⟨hc, hpos⟩

/-- An error may stand at an offset that has been passed. -/
theorem failAt (h : start < n) : Confined input Within n k (failAt start cause : Decode α) :=
  fun _ hc hpos => ⟨hc, .of_lt (Nat.lt_of_lt_of_le h hpos)⟩

theorem failAt_of_le (h : start ≤ n) (hlarge : cause ≠ .integerTooLarge)
    (hend : cause ≠ .endExpected) :
    Confined input Within n k (Binary.failAt start cause : Decode α) :=
  fun _ hc hpos => ⟨hc, .of_le (Nat.le_trans h hpos) hlarge hend⟩

theorem fail (hlarge : cause ≠ .integerTooLarge) (hend : cause ≠ .endExpected) :
    Confined input Within n k (fail cause : Decode α) :=
  fun _ hc _ => ⟨hc, .of_le (Nat.le_refl _) hlarge hend⟩

/-- Nothing is read behind an error. -/
theorem fail_bind {f : β → Decode α} (hlarge : cause ≠ .integerTooLarge)
    (hend : cause ≠ .endExpected) : Confined input Within n k (Binary.fail cause >>= f) :=
  fun _ hc _ => ⟨hc, .of_le (Nat.le_refl _) hlarge hend⟩

/-- An error stands at the end of the input if there is no byte, and else the byte is known. -/
theorem peek_bind {f : Option UInt8 → Decode α} (hlarge : cause ≠ .integerTooLarge)
    (hnone : f none = Binary.fail cause) (hsome : ∀ b, Confined input Within n k (f (some b))) :
    Confined input Within n k (Binary.peek >>= f) := by
  intro c hc hpos
  show Lands input Within k (f c.input[c.pos]? c)
  cases hb : c.input[c.pos]? with
  | some b => exact hsome b c hc hpos
  | none =>
    have hend : c.pos = c.input.size := Nat.le_antisymm hc.valid (Array.getElem?_eq_none_iff.1 hb)
    rw [hnone]
    exact ⟨hc, ⟨Nat.le_refl _, (absurd · hlarge), fun _ => .inr hend⟩⟩

theorem byte : Confined input Within n (n + 1) readByte := by
  intro c hc hpos
  unfold readByte
  split
  · rename_i b hb
    obtain ⟨hlt, -⟩ := Array.getElem?_eq_some_iff.1 hb
    exact ⟨hc.move hlt, Nat.succ_le_succ hpos⟩
  · exact ⟨hc, .of_le (Nat.le_refl _) nofun nofun⟩

theorem bytes (k : Nat) : Confined input Within n (n + k) (readBytes k) := by
  intro c hc hpos
  unfold readBytes
  split
  · rename_i hle
    exact ⟨hc.move hle, Nat.add_le_add_right hpos k⟩
  · exact ⟨hc, .of_le (Nat.le_refl _) nofun nofun⟩

/-- Behind a jump the position is the target, wherever it was. -/
theorem skipTo (target : Nat) : Confined input Within n target (skipTo target) := by
  intro c hc _
  unfold Binary.skipTo
  split
  · rename_i hle
    exact ⟨hc.move hle, Nat.le_refl _⟩
  · exact ⟨hc, .of_le (Nat.le_refl _) nofun nofun⟩

/-- An instruction is opened if there is room, and else the error is about its offset. -/
theorem enter (h : ∀ m : Cursor, n ≤ m.pos → E ⟨start, .nestingTooDeep⟩ m) :
    Confined input E n n (enter start) := by
  intro c hc hpos
  unfold Binary.enter
  split
  · rename_i hroom
    exact ⟨⟨hc.input_eq, hc.pos_le, hroom⟩, hpos⟩
  · exact ⟨hc, h c hpos⟩

theorem leave : Confined input E n n leave :=
  fun _ hc hpos =>
    ⟨⟨hc.input_eq, hc.pos_le, Nat.le_trans (Nat.sub_le _ 1) hc.depth_le⟩, hpos⟩

/-! ## Integers -/

theorem groups (left : Nat) : Confined input Within n (n + 1) (readGroups left) := by
  induction left generalizing n with
  | zero => exact .fail nofun nofun
  | succ left ih =>
    refine byte.bind fun b => ?_
    dsimp only
    split
    · exact .pure _
    · exact ih.stay.bind fun _ => .pure _

/-- Behind a byte there is one to go back by. -/
theorem failBehind : Confined input Within (n + 1) k (failBehind cause : Decode α) :=
  fun c hc hpos => ⟨hc, .of_lt (Nat.sub_one_lt (by omega))⟩

theorem unsigned (bits : Nat) : Confined input Within n (n + 1) (readUnsigned bits) :=
  (groups _).bind fun g => by
    split
    · exact .pure _
    · exact failBehind

theorem signed (bits : Nat) : Confined input Within n (n + 1) (readSigned bits) :=
  (groups _).bind fun g => by
    split
    · exact .pure _
    · exact failBehind

theorem u32 : Confined input Within n (n + 1) readU32 := (unsigned 32).map _

theorem s7 : Confined input Within n (n + 1) readS7 := signed 7

theorem s32 : Confined input Within n (n + 1) readS32 := (signed 32).map _

theorem s33 : Confined input Within n (n + 1) readS33 := signed 33

theorem s64 : Confined input Within n (n + 1) readS64 := (signed 64).map _

/-! ## Vectors and names -/

theorem items {item : Decode α} (hi : Confined input E n n item) (count : Nat)
    (before : List α) : Confined input E n n (readItems item count before) := by
  induction count generalizing before with
  | zero => exact .pure _
  | succ count ih => exact hi.bind fun a => ih (a :: before)

theorem vec {item : Decode α} (hi : Confined input Within n n item) :
    Confined input Within n n (readVec item) :=
  u32.stay.bind fun _ => hi.items _ _

theorem name : Confined input Within n (n + 1) readName := by
  refine u32.bind fun length => offset_bind (k := 0) fun start => ?_
  refine (bytes length.toNat).stay.bind fun bs => ?_
  split
  · exact .pure _
  -- No byte need have been read since the name began.
  · exact .failAt_of_le (Nat.le_refl start) nofun nofun

/-! ## Types -/

theorem valueType : Confined input Within n (n + 1) readValueType :=
  offset_bind fun start => s7.bind fun tag => by
    split
    · exact .pure _
    · exact .failAt (Nat.lt_succ_self start)

theorem blockType : Confined input Within n (n + 1) readBlockType :=
  offset_bind fun start => s33.bind fun raw => by
    split
    · exact .pure _
    · split
      · exact .pure _
      · split
        · exact .failAt (Nat.lt_succ_self start)
        · split
          · exact .pure _
          · exact .failAt (Nat.lt_succ_self start)

/-! ## Plain instructions -/

theorem memArg : Confined input Within n n readMemArg :=
  u32.stay.bind fun _ => u32.stay.bind fun _ => .pure _

theorem saturating (h : start < n) : Confined input Within n n (readSaturating start) :=
  u32.stay.bind fun sub => by
    split
    · exact .pure _
    · exact .failAt h

theorem byTable (h : start < n) (opcode : UInt8) :
    Confined input Within n n (readByTable start opcode) := by
  unfold readByTable
  split
  · exact memArg.map _
  · split
    · exact memArg.map _
    · split
      · exact .pure _
      · exact .failAt h

theorem plain (h : start < n) (opcode : UInt8) :
    Confined input Within n n (readPlain start opcode) := by
  unfold readPlain
  split
  · exact .pure _
  · exact u32.stay.map _
  · split
    · exact u32.stay.vec.bind fun _ => u32.stay.bind fun _ => .pure _
    · exact u32.stay.bind fun _ => u32.stay.bind fun _ => .pure _
    · exact s32.stay.map _
    · exact s64.stay.map _
    · exact (bytes 4).stay.map _
    · exact (bytes 8).stay.map _
    · exact saturating h
    · exact byTable h _

/-! ## Bodies and instructions -/

theorem item : Confined input Within n (n + 1) readItem :=
  offset_bind fun start => byte.bind fun opcode => by
    split
    · exact (enter fun _ hpos => .of_lt hpos).bind fun _ => blockType.stay.bind fun _ => .pure _
    · exact (plain (Nat.lt_succ_self start) _).bind fun _ => .pure _

theorem close (b : Body) : Confined input Within n n b.close := by
  unfold Body.close
  split
  · exact .pure _
  · exact leave.bind fun _ => .pure _

theorem alternative (b : Body) : Confined input Within (n + 1) (n + 1) b.alternative := by
  unfold Body.alternative
  split
  · exact .pure _
  · exact failBehind

theorem missing_ne (opening : Opening) : opening.missing ≠ .integerTooLarge := by
  cases opening <;> nofun

theorem turn (b : Body) : Confined input Within n (n + 1) b.read :=
  peek_bind (missing_ne b.opening) rfl fun opcode => by
    dsimp only
    split
    · exact byte.bind fun _ => close b
    · split
      -- An `else` out of place has been read, so there is a byte to go back by.
      · exact byte.bind fun _ => alternative b
      · exact item.bind fun i => by
          split <;> exact .pure _

theorem body (opening : Opening) : Confined input Within n n (readBody opening) :=
  .iterate _ (fun b => (turn b).stay) _

theorem instr : Confined input Within n (n + 1) readInstr :=
  item.bind fun i => by
    split
    · exact .pure _
    · exact (body _).bind fun _ => leave.bind fun _ => .pure _

theorem expr : Confined input Within n n readExpr :=
  (body _).bind fun _ => .pure _

end Confined

end WasmPack.Binary
