/-
  WasmPack.Proofs.Reading.Sessions

  Readings are local and delimit themselves, and a cursor stays in its input, in
  whatever order it is read with.

  What comes of a reading depends on the bytes that it goes over and on the
  nesting, and it ends nowhere in them.  Both follow from what a reading accepts.
  The bytes that a success goes over are a word of the production, so they are
  read wherever they lie.  A success on fewer of them would be one on all of them
  too, and there is only one.

  Sections and modules are confined as the readings are that they are made of.
  `Operation` is what can be done with a cursor, and `Reached` are the cursors
  that operations bring about one behind the other, each from where the one
  before has stopped, be it by an error.  Readings move the cursor by nothing
  but operations, so what holds of the cursors reached holds of those on the way
  through a reading as well.
-/
import WasmPack.Binary.Module
import WasmPack.Proofs.Reading.Confined
import WasmPack.Proofs.Reading.Instr

namespace WasmPack.Binary

section Locality

open Grammar Wasm

variable {α : Type} {x : Decode α} {G : Production α} {depth n : Nat} {c c' m : Cursor} {a : α}

/-! ## Pieces of the input -/

/-- The bytes from one position to another. -/
def Cursor.passed (c c' : Cursor) : List UInt8 := (c.input.extract c.pos c'.pos).toList

/-- The cursor in the input cut off after a number of bytes. -/
def Cursor.cut (c : Cursor) (n : Nat) : Cursor := { c with input := c.input.take n }

theorem Cursor.passed_advance {w : List UInt8} (h : w <+: c.ahead) :
    c.passed (c.advance w.length) = w := by
  rw [passed, Array.toList_extract, List.extract_eq_take_drop, advance_pos, Nat.add_sub_cancel_left]
  exact (List.prefix_iff_eq_take.1 h).symm

theorem Cursor.ahead_cut (c : Cursor) (n : Nat) : (c.cut n).ahead = c.ahead.take (n - c.pos) := by
  show (c.input.take n).toList.drop c.pos = _
  rw [Array.take_eq_extract, Array.toList_extract, List.extract_eq_take_drop, List.drop_zero,
    Nat.sub_zero, List.drop_take]
  rfl

theorem Cursor.Valid.cut (hv : c.Valid) (h : c.pos ≤ n) : (c.cut n).Valid := by
  show c.pos ≤ (c.input.take n).size
  rw [Array.take_eq_extract, Array.size_extract, Nat.sub_zero]
  exact Nat.le_min.2 ⟨h, hv⟩

/-! ## What is accepted is local -/

/-- What a success leaves behind, wherever else its bytes are read, and where they are cut off. -/
structure Delimits (x : Decode α) (c : Cursor) (a : α) (c' : Cursor) : Prop where
  /-- The success moves on in the input, and restores the nesting. -/
  moves : c.pos ≤ c'.pos ∧ c'.pos ≤ c.input.size ∧ c' = c.advance (c'.pos - c.pos)
  /-- The same bytes elsewhere, at the same nesting, are read alike. -/
  elsewhere : ∀ m : Cursor, m.Valid → m.depth = c.depth → c.passed c' <+: m.ahead →
    x m = .ok a (m.advance (c'.pos - c.pos))
  /-- Cut off before their end, the bytes are not read. -/
  cutOff : ∀ n, c.pos ≤ n → n < c'.pos → ∃ e m, x (c.cut n) = .error e m

/-- A reading that accepts the words of a production is local and delimits itself. -/
theorem Reads.delimits (hx : Reads depth x G) (hv : c.Valid) (hd : c.depth = depth)
    (h : x c = .ok a c') : Delimits x c a c' := by
  obtain ⟨w, hw, hp, rfl⟩ := (hx c a c' hv hd).1 h
  have hlen : (c.advance w.length).pos - c.pos = w.length := Nat.add_sub_cancel_left _ _
  refine ⟨⟨Nat.le_add_right _ _, hv.advance hp, by rw [hlen]⟩, ?elsewhere, ?cutOff⟩
  case elsewhere =>
    intro m hm hdepth hpassed
    rw [Cursor.passed_advance hp] at hpassed
    rw [hlen]
    exact (hx m a _ hm (hdepth.trans hd)).2 ⟨w, hw, hpassed, rfl⟩
  case cutOff =>
    intro n hlo hhi
    cases hcut : x (c.cut n) with
    | error e m => exact ⟨e, m, rfl⟩
    | ok b m =>
      -- A word in front of the cut is one in front of the whole input.
      obtain ⟨u, hu, hup, rfl⟩ := (hx (c.cut n) b m (hv.cut hlo) hd).1 hcut
      rw [Cursor.ahead_cut] at hup
      have hsame := (hx c b _ hv hd).2 ⟨u, hu, hup.trans (List.take_prefix _ _), rfl⟩
      have hpos : c.pos + w.length = c.pos + u.length := by
        rw [h] at hsame
        injection hsame with _ hsame
        exact congrArg Cursor.pos hsame
      have hle := hup.length_le
      rw [List.length_take] at hle
      rw [Cursor.advance_pos] at hhi
      omega

/-! ## The readings -/

/-- Readings of integers, names, types, instructions and expressions, and of vectors of them. -/
inductive Reading : {α : Type} → Decode α → Prop where
  | unsigned (bits : Nat) : Reading (readUnsigned bits)
  | signed (bits : Nat) : Reading (readSigned bits)
  | name : Reading readName
  | valueType : Reading readValueType
  | instr : Reading readInstr
  | expr : Reading readExpr
  | vec {α : Type} {item : Decode α} (h : Reading item) : Reading (readVec item)

/-- At every nesting, a reading accepts the words of a production. -/
theorem Reading.exists_reads (h : Reading x) (depth : Nat) : ∃ G, Reads depth x G := by
  induction h with
  | unsigned bits => exact ⟨_, Reads.unsigned bits⟩
  | signed bits => exact ⟨_, Reads.signed bits⟩
  | name => exact ⟨_, Reads.name⟩
  | valueType => exact ⟨_, Reads.valueType⟩
  | instr => exact ⟨_, Reads.instr depth⟩
  | expr => exact ⟨_, Reads.expr depth⟩
  | vec _ ih =>
    obtain ⟨G, hG⟩ := ih
    exact ⟨_, Reads.vec hG⟩

/-- **Locality.**  Where a reading succeeds, the bytes that it goes over are read alike wherever
    they lie at the same nesting, and not without the last of them. -/
theorem readings_delimit (h : Reading x) (hv : c.Valid) (hx : x c = .ok a c') :
    Delimits x c a c' := by
  obtain ⟨G, hG⟩ := h.exists_reads c.depth
  exact hG.delimits hv rfl hx

/-- A vector with an expression in which a block is nested as deep as may be, in the middle of an
    input, alone, and without its last byte. -/
theorem readings_delimit_block :
    readVec readExpr ⟨#[0xAA, 0x01, 0x02, 0x40, 0x0B, 0x0B, 0xFF], 1, 511⟩ =
      .ok [[.block .empty []]] ⟨#[0xAA, 0x01, 0x02, 0x40, 0x0B, 0x0B, 0xFF], 6, 511⟩ ∧
    readVec readExpr ⟨#[0x01, 0x02, 0x40, 0x0B, 0x0B], 0, 511⟩ =
      .ok [[.block .empty []]] ⟨#[0x01, 0x02, 0x40, 0x0B, 0x0B], 5, 511⟩ ∧
    ∃ e m, readVec readExpr ⟨#[0xAA, 0x01, 0x02, 0x40, 0x0B], 1, 511⟩ = .error e m := by
  have hread : readVec readExpr ⟨#[0xAA, 0x01, 0x02, 0x40, 0x0B, 0x0B, 0xFF], 1, 511⟩ =
      .ok [[.block .empty []]] ⟨#[0xAA, 0x01, 0x02, 0x40, 0x0B, 0x0B, 0xFF], 6, 511⟩ := by cbv
  have hvalid : Cursor.Valid ⟨#[0xAA, 0x01, 0x02, 0x40, 0x0B, 0x0B, 0xFF], 1, 511⟩ := by
    show 1 ≤ 7
    decide
  have hdelimits := readings_delimit (.vec .expr) hvalid hread
  exact ⟨hread, hdelimits.elsewhere ⟨_, 0, 511⟩ (Nat.zero_le _) rfl (List.prefix_refl _),
    hdelimits.cutOff 5 (by decide) (by decide)⟩

end Locality

open Wasm

open DecodeError (Within)

variable {α : Type} {input : Array UInt8} {n k start : Nat} {c : Cursor} {x : Decode α}

namespace Confined

/-! ## Types -/

/-- A reading that goes on unless there is something wrong with what was passed. -/
theorem guard {p : Prop} [Decidable p] {next : Unit → Decode α} (h : start < n)
    (hn : Confined input Within n k (next ())) :
    Confined input Within n k (if p then Binary.failAt start cause >>= next else next ()) := by
  split
  · exact (failAt (k := n) h).bind fun _ => hn
  · exact hn

theorem funcType : Confined input Within n (n + 1) readFuncType :=
  offset_bind fun start => s7.bind fun _ => guard (Nat.lt_succ_self start) <|
    valueType.stay.vec.bind fun _ => valueType.stay.vec.bind fun _ => .pure _

theorem limits : Confined input Within n (n + 1) readLimits :=
  offset_bind fun start => byte.bind fun b => by
    split
    · exact u32.stay.bind fun _ => .pure _
    · exact u32.stay.bind fun _ => u32.stay.bind fun _ => .pure _
    · exact .failAt (Nat.lt_succ_self start)

theorem tableType : Confined input Within n (n + 1) readTableType :=
  offset_bind fun start => s7.bind fun _ => guard (Nat.lt_succ_self start) <|
    limits.stay.bind fun _ => .pure _

theorem globalType : Confined input Within n (n + 1) readGlobalType :=
  valueType.bind fun _ => stay <| offset_bind fun start => byte.bind fun b => by
    split
    · exact .pure _
    · exact .pure _
    · exact .failAt (Nat.lt_succ_self start)

/-! ## Entries -/

theorem importEntry : Confined input Within n (n + 1) readImport :=
  name.bind fun _ => name.stay.bind fun _ => stay <| offset_bind fun start => byte.bind fun b => by
    split
    · exact u32.stay.bind fun _ => .pure _
    · exact tableType.stay.bind fun _ => .pure _
    · exact limits.stay.bind fun _ => .pure _
    · exact globalType.stay.bind fun _ => .pure _
    · exact .failAt (Nat.lt_succ_self start)

theorem global : Confined input Within n (n + 1) readGlobal :=
  globalType.bind fun _ => expr.bind fun _ => .pure _

theorem exportEntry : Confined input Within n (n + 1) readExport :=
  name.bind fun _ => stay <| offset_bind fun start => byte.bind fun b => by
    split
    · exact u32.stay.bind fun _ => .pure _
    · exact .failAt (Nat.lt_succ_self start)

theorem elem : Confined input Within n (n + 1) readElem :=
  u32.bind fun _ => expr.bind fun _ => u32.stay.vec.bind fun _ => .pure _

theorem data : Confined input Within n (n + 1) readData :=
  u32.bind fun _ => expr.bind fun _ => u32.stay.bind fun _ => (bytes _).stay.bind fun _ => .pure _

/-! ## Frames with a size -/

theorem sized {contents : Decode α} (hc : Confined input Within n n contents) :
    Confined input Within n n (Binary.sized contents) :=
  u32.stay.bind fun _ => offset.bind fun _ => hc.bind fun _ => offset.bind fun _ => by
    split
    · exact .pure _
    · exact .fail nofun nofun

theorem localGroups (groups total : Nat) (before : List (Nat × ValueType)) :
    Confined input Within n n (readLocalGroups groups total before) := by
  induction groups generalizing total before with
  | zero => exact .pure _
  | succ groups ih =>
    refine u32.stay.bind fun count => ?_
    dsimp only
    split
    · exact .fail_bind nofun nofun
    · exact valueType.stay.bind fun _ => ih _ _

theorem code : Confined input Within n n readCode :=
  .sized <| Confined.bind (u32.stay.bind fun _ => (localGroups _ _ _).bind fun _ => .pure _)
    fun _ => expr.bind fun _ => .pure _

/-! ## Custom sections -/

/-- The contents are skipped forward. -/
theorem skipContents (stop : Nat) : Confined input Within n n (skipContents stop) :=
  offset_bind (k := 0) fun start => by
    split
    · exact .fail nofun nofun
    · rename_i hle
      exact (skipTo stop).mono (Nat.le_refl start) (Nat.not_lt.1 hle)

theorem custom : Confined input Within n n skipCustom :=
  peek.bind fun next => by
    split
    · exact byte.stay.bind fun _ => u32.stay.bind fun _ => offset.bind fun _ =>
        name.stay.bind fun _ => (skipContents _).bind fun _ => .pure _
    · exact .pure _

theorem customs : Confined input Within n n skipCustoms := .iterate _ (fun _ => custom) ()

theorem sectionContents {contents : Decode α} (id : UInt8) (absent : α)
    (hc : Confined input Within n n contents) :
    Confined input Within n n (readSection id absent contents) :=
  peek.bind fun next => by
    split
    · exact byte.stay.bind fun _ => hc.sized.bind fun _ => customs.bind fun _ => .pure _
    · exact .pure _

/-! ## Modules -/

theorem preamble : Confined input Within n (n + 4 + 4) readPreamble :=
  (bytes 4).bind fun _ => guard (Nat.succ_pos _) <| (bytes 4).bind fun _ => by
    dsimp only
    split
    · exact .failAt (by omega)
    · exact .pure _

/-- What is left to do at the end of the input is done there. -/
theorem atEnd_bind {f : Bool → Decode α} (hend : Confined input Within input.size k (f true))
    (hmore : Confined input Within n k (f false)) :
    Confined input Within n k (Binary.atEnd >>= f) := by
  intro c hc hpos
  show Lands input Within k (f (decide (c.input.size ≤ c.pos)) c)
  by_cases hle : c.input.size ≤ c.pos
  · rw [decide_eq_true hle]
    rw [hc.input_eq] at hle
    exact hend c hc hle
  · rw [decide_eq_false hle]
    exact hmore c hc hpos

/-- A module is read to the end of the input. -/
theorem module : Confined input Within n input.size readModule := by
  refine preamble.bind fun _ => customs.bind fun _ => ?_
  refine (sectionContents 1 _ funcType.stay.vec).bind fun types => ?_
  refine (sectionContents 2 _ importEntry.stay.vec).bind fun imports => ?_
  refine (sectionContents 3 _ u32.stay.vec).bind fun funcTypes => ?_
  refine (sectionContents 4 _ tableType.stay.vec).bind fun tables => ?_
  refine (sectionContents 5 _ limits.stay.vec).bind fun memories => ?_
  refine (sectionContents 6 _ global.stay.vec).bind fun globals => ?_
  refine (sectionContents 7 _ exportEntry.stay.vec).bind fun exports => ?_
  refine (sectionContents 8 _ (u32.stay.map some)).bind fun start => ?_
  refine (sectionContents 9 _ elem.stay.vec).bind fun elems => ?_
  refine (sectionContents 10 _ code.vec).bind fun codes => ?_
  refine (sectionContents 11 _ data.stay.vec).bind fun data => ?_
  -- If bytes are left over, nothing else comes of the module.
  refine atEnd_bind ?_ (.fail_bind nofun nofun)
  dsimp only
  rw [if_pos rfl]
  split
  · exact .fail_bind nofun nofun
  · exact .pure _

end Confined

/-! ## Operations -/

/-- Go on behind an error, with the error in hand and the cursor as it was left. -/
def attempt (x : Decode α) : Decode (Except DecodeError α) := fun c =>
  match x c with
  | .ok a m => .ok (.ok a) m
  | .error e m => .ok (.error e) m

/-- What can be done with a cursor: all operations and readings, one behind the other, also behind
    errors, and with the items of vectors.  Structured instructions may be opened by hand, as if
    their opcode were at one of the offsets `byHand`. -/
inductive Operation (byHand : Nat → Prop) : {α : Type} → Decode α → Prop where
  | offset : Operation byHand offset
  | atEnd : Operation byHand atEnd
  | peek : Operation byHand peek
  | fail {α : Type} (cause : Cause) : Operation byHand (fail cause : Decode α)
  | enter {start : Nat} (h : byHand start) : Operation byHand (enter start)
  | leave : Operation byHand leave
  | byte : Operation byHand readByte
  | bytes (n : Nat) : Operation byHand (readBytes n)
  | skipTo (target : Nat) : Operation byHand (skipTo target)
  | unsigned (bits : Nat) : Operation byHand (readUnsigned bits)
  | signed (bits : Nat) : Operation byHand (readSigned bits)
  | u32 : Operation byHand readU32
  | s7 : Operation byHand readS7
  | s32 : Operation byHand readS32
  | s33 : Operation byHand readS33
  | s64 : Operation byHand readS64
  | name : Operation byHand readName
  | vec {α : Type} {item : Decode α} (h : Operation byHand item) : Operation byHand (readVec item)
  | valueType : Operation byHand readValueType
  | instr : Operation byHand readInstr
  | expr : Operation byHand readExpr
  | pure {α : Type} (a : α) : Operation byHand (pure a : Decode α)
  | bind {α β : Type} {x : Decode α} {f : α → Decode β} (hx : Operation byHand x)
      (hf : ∀ a, Operation byHand (f a)) : Operation byHand (x >>= f)
  | attempt {α : Type} {x : Decode α} (hx : Operation byHand x) : Operation byHand (attempt x)

/-- Behind an error nothing is known of where in the input the cursor is. -/
theorem Confined.attempt {E : DecodeError → Cursor → Prop} (hx : Confined input E n 0 x) :
    Confined input E n 0 (attempt x) := by
  intro c hc hpos
  unfold Binary.attempt
  split
  · rename_i hr
    exact hx.of_ok hc hpos hr
  · rename_i hr
    exact ⟨(hx.of_error hc hpos hr).1, Nat.zero_le _⟩

/-- The cursors that operations bring about in an input, each from where the one before has left
    the cursor, whatever came of it. -/
inductive Reached (input : Array UInt8) : Cursor → Prop where
  | start : Reached input { input }
  | ok {byHand : Nat → Prop} {α : Type} {x : Decode α} {c m : Cursor} {a : α}
      (hc : Reached input c) (hx : Operation byHand x) (h : x c = .ok a m) : Reached input m
  | error {byHand : Nat → Prop} {α : Type} {x : Decode α} {c m : Cursor} {e : DecodeError}
      (hc : Reached input c) (hx : Operation byHand x) (h : x c = .error e m) : Reached input m

/-- An error stands at or in front of the position, or at an offset that was given by hand. -/
def PassedOr (byHand : Nat → Prop) (e : DecodeError) (c : Cursor) : Prop :=
  e.offset ≤ c.pos ∨ e.cause = .nestingTooDeep ∧ byHand e.offset

theorem Confined.passed {byHand : Nat → Prop} (hx : Confined input Within n k x) :
    Confined input (PassedOr byHand) n k x :=
  hx.weaken fun _ _ he => .inl he.offset_le

/-- An operation stays in the input from wherever it begins. -/
theorem Operation.confined {byHand : Nat → Prop} (h : Operation byHand x) :
    Confined input (PassedOr byHand) 0 0 x := by
  -- Jumps may lead in front of where an operation began, so nothing is kept of positions.
  induction h with
  | offset => exact .offset
  | atEnd => exact .atEnd
  | peek => exact .peek
  | fail cause => exact fun c hc hpos => ⟨hc, .inl (Nat.le_refl _)⟩
  | enter h => exact .enter fun _ _ => .inr ⟨rfl, h⟩
  | leave => exact .leave
  | byte => exact Confined.byte.stay.passed
  | bytes n => exact (Confined.bytes n).stay.passed
  | skipTo target => exact ((Confined.skipTo target).mono (Nat.le_refl 0) (Nat.zero_le _)).passed
  | unsigned bits => exact (Confined.unsigned bits).stay.passed
  | signed bits => exact (Confined.signed bits).stay.passed
  | u32 => exact Confined.u32.stay.passed
  | s7 => exact Confined.s7.stay.passed
  | s32 => exact Confined.s32.stay.passed
  | s33 => exact Confined.s33.stay.passed
  | s64 => exact Confined.s64.stay.passed
  | name => exact Confined.name.stay.passed
  | vec _ ih => exact Confined.u32.stay.passed.bind fun _ => ih.items _ _
  | valueType => exact Confined.valueType.stay.passed
  | instr => exact Confined.instr.stay.passed
  | expr => exact Confined.expr.passed
  | pure a => exact .pure a
  | bind _ _ ihx ihf => exact ihx.bind ihf
  | attempt _ ih => exact ih.attempt

/-- A reading has its errors in what it went over. -/
theorem Reading.confined (h : Reading x) : Confined input Within n n x := by
  induction h with
  | unsigned bits => exact (Confined.unsigned bits).stay
  | signed bits => exact (Confined.signed bits).stay
  | name => exact Confined.name.stay
  | valueType => exact Confined.valueType.stay
  | instr => exact Confined.instr.stay
  | expr => exact .expr
  | vec _ ih => exact ih.vec

theorem Reached.inside (h : Reached input c) : c.Inside input := by
  induction h with
  | start => exact .start input
  | ok _ hx h ih => exact (hx.confined.of_ok ih (Nat.zero_le _) h).1
  | error _ hx h ih => exact (hx.confined.of_error ih (Nat.zero_le _) h).1

/-- What is decoded has been read from the beginning. -/
theorem exists_ok_of_decode {module : Module} (h : decode input = .ok module) :
    ∃ c, readModule { input } = .ok module c := by
  unfold decode at h
  split at h
  · rename_i c hr
    cases h
    exact ⟨c, hr⟩
  · cases h

theorem exists_error_of_decode {e : DecodeError} (h : decode input = .error e) :
    ∃ c, readModule { input } = .error e c := by
  unfold decode at h
  split at h
  · cases h
  · rename_i c hr
    cases h
    exact ⟨c, hr⟩

/-- **Staying inside.**  Whatever is done with a cursor, one thing after the other and behind errors
    from where they leave it: the position lies in the input, at most 512 structured instructions are
    open, and errors stand at offsets of the input, unless they are about an instruction opened by
    hand at another.  So the bytes that are left behind the count of a vector can be counted, what is
    cut out of the input is all there, and an error at the byte just read has one to go back by.
    Decoding has its errors in the input as well, and succeeds at the end of it only. -/
theorem cursors_stay_inside (input : Array UInt8) :
    (∀ c, Reached input c →
      (c.input = input ∧ c.pos ≤ input.size ∧ c.depth ≤ 512) ∧
      (∀ {byHand : Nat → Prop} {α : Type} {x : Decode α} {e : DecodeError} {m : Cursor},
        Operation byHand x → x c = .error e m →
          e.offset ≤ input.size ∨ e.cause = .nestingTooDeep ∧ byHand e.offset) ∧
      (∀ count m, readU32 c = .ok count m → m.pos ≤ input.size) ∧
      (∀ n bs m, readBytes n c = .ok bs m → bs.length = n) ∧
      ∀ {α : Type} {x : Decode α} {e : DecodeError} {m : Cursor},
        Reading x → x c = .error e m → e.Within m) ∧
    (∀ e, decode input = .error e → e.offset ≤ input.size) ∧
    ∀ module, decode input = .ok module →
      ∃ c, readModule { input } = .ok module c ∧ c.pos = input.size := by
  refine ⟨fun c hc => ⟨?state, ?errors, ?count, ?cut, ?found⟩, ?refused, ?accepted⟩
  case state => exact ⟨hc.inside.input_eq, hc.inside.pos_le, hc.inside.depth_le⟩
  case errors =>
    intro byHand α x e m hx h
    obtain ⟨hm, he⟩ := hx.confined.of_error hc.inside (Nat.zero_le _) h
    exact he.imp (fun hle => Nat.le_trans hle hm.pos_le) id
  case count =>
    intro count m h
    have hu : Operation (fun _ => False) readU32 := .u32
    exact (Reached.ok hc hu h).inside.pos_le
  case cut =>
    intro n bs m h
    obtain ⟨_, ⟨-, hlen⟩, -⟩ := (Reads.bytes n c bs m hc.inside.valid rfl).1 h
    exact hlen
  case found =>
    intro α x e m hx h
    exact (hx.confined.of_error hc.inside (Nat.zero_le _) h).2
  case refused =>
    intro e h
    -- A module is refused where its reader stopped, which began at the start of the input.
    obtain ⟨m, hr⟩ := exists_error_of_decode h
    obtain ⟨hm, he⟩ := Confined.module.of_error (.start input) (Nat.zero_le _) hr
    exact Nat.le_trans he.offset_le hm.pos_le
  case accepted =>
    intro module h
    obtain ⟨m, hr⟩ := exists_ok_of_decode h
    obtain ⟨hm, hend⟩ := Confined.module.of_ok (.start input) (Nat.zero_le _) hr
    exact ⟨m, hr, Nat.le_antisymm hm.pos_le hend⟩

/-- An empty module with a custom section, in which a block and a loop have no `end`. -/
def unfinished : Array UInt8 :=
  #[0x00, 0x61, 0x73, 0x6D, 0x01, 0x00, 0x00, 0x00, 0x00, 0x06, 0x00, 0x02, 0x40, 0x03, 0x40, 0x05]

/-- Behind the `else` that closes neither the loop nor the block both stay open, and going back into
    them, a byte is too large for one bit.  To the decoder all that is a section to skip. -/
theorem cursors_stay_inside_unfinished :
    Reached unfinished ⟨unfinished, 12, 2⟩ ∧
    readUnsigned 1 ⟨unfinished, 12, 2⟩ =
      .error ⟨12, .integerTooLarge⟩ ⟨unfinished, 13, 2⟩ ∧
    12 ≤ unfinished.size ∧ Within ⟨12, .integerTooLarge⟩ ⟨unfinished, 13, 2⟩ ∧
    decode unfinished = .ok {} ∧
    ∃ c, readModule { input := unfinished } = .ok {} c ∧ c.pos = unfinished.size := by
  have hforth : skipTo 11 { input := unfinished } = .ok () ⟨unfinished, 11, 0⟩ := rfl
  have hexpr : readExpr ⟨unfinished, 11, 0⟩ =
      .error ⟨15, .endExpected⟩ ⟨unfinished, 16, 2⟩ := by cbv
  have hback : skipTo 12 ⟨unfinished, 16, 2⟩ = .ok () ⟨unfinished, 12, 2⟩ := rfl
  have hlarge : readUnsigned 1 ⟨unfinished, 12, 2⟩ =
      .error ⟨12, .integerTooLarge⟩ ⟨unfinished, 13, 2⟩ := by cbv
  have hdecode : decode unfinished = .ok {} := by cbv
  have hskip : ∀ target, Operation (fun _ => False) (skipTo target) := .skipTo
  have hread : Operation (fun _ => False) readExpr := .expr
  have hreached : Reached unfinished ⟨unfinished, 12, 2⟩ :=
    ((Reached.start.ok (hskip 11) hforth).error hread hexpr).ok (hskip 12) hback
  obtain ⟨hstay, -, haccepted⟩ := cursors_stay_inside unfinished
  obtain ⟨-, herrors, -, -, hfound⟩ := hstay _ hreached
  have hbits : Operation (fun _ => False) (readUnsigned 1) := .unsigned 1
  exact ⟨hreached, hlarge, (herrors hbits hlarge).resolve_right And.right,
    hfound (.unsigned 1) hlarge, hdecode, haccepted _ hdecode⟩

end WasmPack.Binary
