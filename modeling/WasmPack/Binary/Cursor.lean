/-
  WasmPack.Binary.Cursor

  A cursor over the input and the reading of raw bytes.

  A reading that fails leaves the cursor where it stopped, so the state after
  an error is as definite as the state after a success.  A loop of readings ends
  because every turn that goes on has consumed a byte; `iterate` is the one
  recursion on the input, and `Advances` and `Keeps` are the facts it asks for.
-/
import WasmPack.Binary.Error
import WasmPack.Wasm.Instr

namespace WasmPack.Binary

/-- A position in the input and the number of structured instructions open there. -/
structure Cursor where
  input : Array UInt8
  pos : Nat := 0
  depth : Nat := 0
deriving Inhabited

/-- The number of bytes not yet read. -/
def Cursor.remaining (c : Cursor) : Nat := c.input.size - c.pos

/-- Readings: they move a cursor and give a value or an error. -/
abbrev Decode := EStateM DecodeError Cursor

/-! ## Position and errors -/

/-- The current offset. -/
def offset : Decode Nat := fun c => .ok c.pos c

/-- Fail with an error located at a given offset. -/
def failAt (start : Nat) (cause : Cause) : Decode α := fun c => .error ⟨start, cause⟩ c

/-- Fail with an error located at the current offset. -/
def fail (cause : Cause) : Decode α := fun c => .error ⟨c.pos, cause⟩ c

/-- Whether the input has been read to its end. -/
def atEnd : Decode Bool := fun c => .ok (c.input.size ≤ c.pos) c

/-- The next byte, if there is one, without reading it. -/
def peek : Decode (Option UInt8) := fun c => .ok c.input[c.pos]? c

/-! ## Bytes -/

/-- Read one byte. -/
def readByte : Decode UInt8 := fun c =>
  match c.input[c.pos]? with
  | some b => .ok b { c with pos := c.pos + 1 }
  | none => .error ⟨c.pos, .unexpectedEnd⟩ c

/-- Read `n` bytes, or none of them. -/
def readBytes (n : Nat) : Decode (List UInt8) := fun c =>
  if c.pos + n ≤ c.input.size then
    .ok (c.input.extract c.pos (c.pos + n)).toList { c with pos := c.pos + n }
  else .error ⟨c.pos, .unexpectedEnd⟩ c

/-- Move to an offset inside the input, forward or back. -/
def skipTo (target : Nat) : Decode Unit := fun c =>
  if target ≤ c.input.size then .ok () { c with pos := target }
  else .error ⟨c.pos, .unexpectedEnd⟩ c

/-! ## Nesting -/

/-- Open a structured instruction, whose opcode is at `start`, if the nesting allows it. -/
def enter (start : Nat) : Decode Unit := fun c =>
  if c.depth < Wasm.maxNesting then .ok () { c with depth := c.depth + 1 }
  else .error ⟨start, .nestingTooDeep⟩ c

/-- Close the innermost structured instruction. -/
def leave : Decode Unit := fun c => .ok () { c with depth := c.depth - 1 }

/-! ## Repetition -/

/-- Read `n` items in a row and put them behind the items read so far, which come last first. -/
def readItems (item : Decode α) : Nat → List α → Decode (List α)
  | 0, before => return before.reverse
  | n + 1, before => do
    let a ← item
    readItems item n (a :: before)

/-- No success of the reading ends with more bytes ahead than it began with. -/
def Keeps (x : Decode α) : Prop :=
  ∀ c a c', x c = .ok a c' → c'.remaining ≤ c.remaining

/-- Every success of the reading has consumed a byte. -/
def Advances (x : Decode α) : Prop :=
  ∀ c a c', x c = .ok a c' → c'.remaining < c.remaining

/-- Every success that asks to go on with a new state has consumed a byte. -/
def AdvancesOn (step : σ → Decode (σ ⊕ α)) : Prop :=
  ∀ s c s' c', step s c = .ok (.inl s') c' → c'.remaining < c.remaining

/-- Repeat `step` until it gives a result. -/
def iterate (step : σ → Decode (σ ⊕ α)) (h : AdvancesOn step) (s : σ) (c : Cursor) :
    EStateM.Result DecodeError Cursor α :=
  match _hr : step s c with
  | .ok (.inl s') c' => iterate step h s' c'
  | .ok (.inr a) c' => .ok a c'
  | .error e c' => .error e c'
termination_by c.remaining
decreasing_by exact h s c s' c' ‹_›

/-! ## Which readings consume -/

theorem Advances.keeps {x : Decode α} (h : Advances x) : Keeps x :=
  fun c a c' hr => Nat.le_of_lt (h c a c' hr)

theorem Advances.on {step : σ → Decode (σ ⊕ α)} (h : ∀ s, Advances (step s)) : AdvancesOn step :=
  fun s c s' c' hr => h s c (.inl s') c' hr

/-- A success of a sequence of two readings is a success of each. -/
theorem bind_eq_ok {x : Decode α} {f : α → Decode β} {c : Cursor} {b : β} {c' : Cursor} :
    (x >>= f) c = .ok b c' ↔ ∃ a m, x c = .ok a m ∧ f a m = .ok b c' := by
  show EStateM.bind x f c = _ ↔ _
  unfold EStateM.bind
  cases hx : x c with
  | ok a m =>
    constructor
    · exact fun h => ⟨a, m, rfl, h⟩
    · rintro ⟨a', m', h, hf⟩
      cases h
      exact hf
  | error e m => simp

theorem keeps_pure (a : α) : Keeps (pure a : Decode α) := by
  intro c b c' hr
  cases hr
  exact Nat.le_refl _

theorem keeps_bind {x : Decode α} {f : α → Decode β} (hx : Keeps x) (hf : ∀ a, Keeps (f a)) :
    Keeps (x >>= f) := by
  intro c b c' hr
  obtain ⟨a, m, h₁, h₂⟩ := bind_eq_ok.1 hr
  exact Nat.le_trans (hf a m b c' h₂) (hx c a m h₁)

theorem advances_bind {x : Decode α} {f : α → Decode β} (hx : Advances x)
    (hf : ∀ a, Keeps (f a)) : Advances (x >>= f) := by
  intro c b c' hr
  obtain ⟨a, m, h₁, h₂⟩ := bind_eq_ok.1 hr
  exact Nat.lt_of_le_of_lt (hf a m b c' h₂) (hx c a m h₁)

/-- A sequence consumes when its second part does. -/
theorem advances_bind_right {x : Decode α} {f : α → Decode β} (hx : Keeps x)
    (hf : ∀ a, Advances (f a)) : Advances (x >>= f) := by
  intro c b c' hr
  obtain ⟨a, m, h₁, h₂⟩ := bind_eq_ok.1 hr
  exact Nat.lt_of_lt_of_le (hf a m b c' h₂) (hx c a m h₁)

theorem keeps_map {x : Decode α} (f : α → β) (hx : Keeps x) : Keeps (f <$> x) := by
  intro c b c' hr
  have hr : EStateM.map f x c = .ok b c' := hr
  unfold EStateM.map at hr
  cases hx' : x c with
  | ok a m => simp only [hx', EStateM.Result.ok.injEq] at hr; exact hr.2 ▸ hx c a m hx'
  | error e m => simp [hx'] at hr

theorem keeps_offset : Keeps offset := by
  intro c a c' hr
  cases hr
  exact Nat.le_refl _

theorem keeps_peek : Keeps peek := by
  intro c a c' hr
  cases hr
  exact Nat.le_refl _

theorem advances_failAt (start : Nat) (cause : Cause) : Advances (failAt start cause : Decode α) := by
  intro c a c' hr
  cases hr

theorem advances_fail (cause : Cause) : Advances (fail cause : Decode α) := by
  intro c a c' hr
  cases hr

theorem advances_readByte : Advances readByte := by
  intro c a c' hr
  unfold readByte at hr
  split at hr
  · rename_i b hb
    cases hr
    obtain ⟨hlt, -⟩ := Array.getElem?_eq_some_iff.1 hb
    simp only [Cursor.remaining]
    omega
  · cases hr

theorem keeps_readBytes (n : Nat) : Keeps (readBytes n) := by
  intro c a c' hr
  unfold readBytes at hr
  split at hr
  · cases hr
    simp only [Cursor.remaining]
    omega
  · cases hr

theorem keeps_enter (start : Nat) : Keeps (enter start) := by
  intro c a c' hr
  unfold enter at hr
  split at hr
  · cases hr
    exact Nat.le_refl _
  · cases hr

theorem keeps_leave : Keeps leave := by
  intro c a c' hr
  cases hr
  exact Nat.le_refl _

theorem keeps_readItems {item : Decode α} (hi : Keeps item) :
    ∀ n before, Keeps (readItems item n before)
  | 0, _ => keeps_pure _
  | n + 1, _ => keeps_bind hi fun _ => keeps_readItems hi n _

end WasmPack.Binary
