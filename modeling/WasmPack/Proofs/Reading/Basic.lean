/-
  WasmPack.Proofs.Reading.Basic

  What a reading accepts, as a production.

  `Reads depth x G` says that at a nesting of `depth` the reading `x` accepts
  exactly the words of `G`: where the bytes ahead begin with a word of `G`, it
  gives the value of that word and stands behind it, and it succeeds nowhere
  else.  Readings in sequence read productions in sequence.
-/
import WasmPack.Binary.Cursor
import WasmPack.Proofs.Grammar.Instr

namespace WasmPack.Grammar

variable {α β : Type}

/-- Two productions in sequence, the second after the value of the first. -/
def andThen (G : Production α) (H : α → Production β) : Production β := fun w b =>
  ∃ u v a, w = u ++ v ∧ G u a ∧ H a v b

/-- The production of a value by the empty word. -/
def emptyWord (a : α) : Production α := fun w x => w = [] ∧ x = a

/-- The production of nothing. -/
def noWord : Production α := fun _ _ => False

end WasmPack.Grammar

namespace WasmPack.Binary

open Grammar

variable {α β : Type}

/-! ## Cursors -/

namespace Cursor

/-- The bytes ahead. -/
def ahead (c : Cursor) : List UInt8 := c.input.toList.drop c.pos

/-- The cursor moved on by a number of bytes. -/
def advance (c : Cursor) (n : Nat) : Cursor := { c with pos := c.pos + n }

/-- The position lies in the input. -/
def Valid (c : Cursor) : Prop := c.pos ≤ c.input.size

theorem advance_advance (c : Cursor) (m n : Nat) :
    (c.advance m).advance n = c.advance (m + n) := by
  simp only [advance, Nat.add_assoc]

@[simp] theorem advance_depth (c : Cursor) (n : Nat) : (c.advance n).depth = c.depth := rfl

@[simp] theorem advance_pos (c : Cursor) (n : Nat) : (c.advance n).pos = c.pos + n := rfl

theorem length_ahead (c : Cursor) : c.ahead.length = c.input.size - c.pos := by
  rw [ahead, List.length_drop, Array.length_toList]

theorem ahead_advance (c : Cursor) (n : Nat) : (c.advance n).ahead = c.ahead.drop n := by
  rw [ahead, ahead, List.drop_drop]
  rfl

/-- Behind a word that lies ahead, what is left of the bytes ahead lies ahead. -/
theorem ahead_advance_of_append {c : Cursor} {u v : List UInt8} (h : c.ahead = u ++ v) :
    (c.advance u.length).ahead = v := by
  rw [ahead_advance, h, List.drop_left]

/-- Behind a word that lies ahead, the position is still in the input. -/
theorem Valid.advance {c : Cursor} (hv : c.Valid) {w : List UInt8} (h : w <+: c.ahead) :
    (c.advance w.length).Valid := by
  have hlen := h.length_le
  rw [length_ahead] at hlen
  unfold Valid at hv ⊢
  show c.pos + w.length ≤ c.input.size
  omega

/-- The next byte is the first of those ahead. -/
theorem getElem?_pos (c : Cursor) : c.input[c.pos]? = c.ahead.head? := by
  rw [ahead, List.head?_drop, Array.getElem?_toList]

end Cursor

/-! ## Readings and productions -/

/-- At a nesting of `depth` the reading accepts exactly the words of the production. -/
def Reads (depth : Nat) (x : Decode α) (G : Production α) : Prop :=
  ∀ c a c', c.Valid → c.depth = depth →
    (x c = .ok a c' ↔ ∃ w, G w a ∧ w <+: c.ahead ∧ c' = c.advance w.length)

namespace Reads

variable {depth : Nat} {x : Decode α} {f : α → Decode β} {G G' : Production α}
  {H : α → Production β}

/-- A production may be replaced by one with the same words. -/
theorem congr (hx : Reads depth x G) (h : ∀ w a, G w a ↔ G' w a) : Reads depth x G' := by
  intro c a c' hv hd
  rw [hx c a c' hv hd]
  simp only [h]

theorem pure (a : α) : Reads depth (pure a : Decode α) (emptyWord a) := by
  intro c b c' hv hd
  constructor
  · intro h
    cases h
    exact ⟨[], ⟨rfl, rfl⟩, List.nil_prefix, rfl⟩
  · rintro ⟨w, ⟨rfl, rfl⟩, -, rfl⟩
    rfl

/-- Readings in sequence read productions in sequence. -/
theorem bind (hx : Reads depth x G) (hf : ∀ a, Reads depth (f a) (H a)) :
    Reads depth (x >>= f) (andThen G H) := by
  intro c b c' hv hd
  rw [bind_eq_ok]
  constructor
  · rintro ⟨a, m, hxm, hfm⟩
    obtain ⟨u, hG, hu, rfl⟩ := (hx c a m hv hd).1 hxm
    obtain ⟨v, hH, hw, rfl⟩ := (hf a _ b c' (hv.advance hu) hd).1 hfm
    obtain ⟨t, ht⟩ := hu
    rw [Cursor.ahead_advance_of_append ht.symm] at hw
    refine ⟨u ++ v, ⟨u, v, a, rfl, hG, hH⟩, ?_, ?_⟩
    · rw [← ht]
      exact (List.prefix_append_right_inj u).2 hw
    · rw [Cursor.advance_advance, List.length_append]
  · rintro ⟨w, ⟨u, v, a, rfl, hG, hH⟩, ⟨t, ht⟩, rfl⟩
    rw [List.append_assoc] at ht
    have hu : u <+: c.ahead := ⟨v ++ t, ht⟩
    refine ⟨a, c.advance u.length, (hx c a _ hv hd).2 ⟨u, hG, hu, rfl⟩, ?_⟩
    refine (hf a _ b _ (hv.advance hu) hd).2 ⟨v, hH, ?_, ?_⟩
    · rw [Cursor.ahead_advance_of_append ht.symm]
      exact List.prefix_append v t
    · rw [Cursor.advance_advance, List.length_append]

/-- A reading that looks at the position first, where the rest reads the same from any. -/
theorem offset_bind {f : Nat → Decode α} (hf : ∀ n, Reads depth (f n) G) :
    Reads depth (offset >>= f) G := fun c a c' hv hd => hf c.pos c a c' hv hd

/-- The value that is read may be changed. -/
theorem map (g : α → β) (hx : Reads depth x G) :
    Reads depth (g <$> x) (fun w b => ∃ a, G w a ∧ b = g a) := by
  have h : Reads depth (x >>= fun a => Pure.pure (g a)) _ := hx.bind fun a => Reads.pure (g a)
  intro c b c' hv hd
  have hmap : (g <$> x) c = (x >>= fun a => Pure.pure (g a)) c := by
    rw [map_eq_pure_bind]
  rw [hmap, h c b c' hv hd]
  constructor
  · rintro ⟨w, ⟨u, v, a, rfl, hG, rfl, rfl⟩, hw, rfl⟩
    exact ⟨u, ⟨a, hG, rfl⟩, by simpa using hw, by rw [List.append_nil]⟩
  · rintro ⟨w, ⟨a, hG, rfl⟩, hw, rfl⟩
    exact ⟨w, ⟨w, [], a, (List.append_nil w).symm, hG, rfl, rfl⟩, hw, rfl⟩

theorem failAt (start : Nat) (cause : Cause) :
    Reads depth (failAt start cause : Decode α) noWord := by
  intro c a c' hv hd
  constructor
  · intro h
    cases h
  · rintro ⟨w, ⟨⟩, -⟩

theorem fail (cause : Cause) : Reads depth (fail cause : Decode α) noWord := by
  intro c a c' hv hd
  constructor
  · intro h
    cases h
  · rintro ⟨w, ⟨⟩, -⟩

/-- A reading by cases on a condition. -/
theorem ite {p : Prop} [Decidable p] {y : Decode α} (hx : p → Reads depth x G)
    (hy : ¬p → Reads depth y G') :
    Reads depth (if p then x else y) (fun w a => (p ∧ G w a) ∨ (¬p ∧ G' w a)) := by
  by_cases hp : p
  · rw [if_pos hp]
    exact (hx hp).congr fun w a => by simp [hp]
  · rw [if_neg hp]
    exact (hy hp).congr fun w a => by simp [hp]

/-- A reading that fails where a condition holds. -/
theorem guard {p : Prop} [Decidable p] (start : Nat) (cause : Cause) {next : Unit → Decode α}
    (hn : Reads depth (next ()) G) :
    Reads depth (if p then Binary.failAt start cause >>= next else next ())
      (fun w a => ¬p ∧ G w a) := by
  by_cases hp : p
  · rw [if_pos hp]
    exact (Reads.failAt start cause).congr fun w a => ⟨False.elim, fun h => h.1 hp⟩
  · rw [if_neg hp]
    exact hn.congr fun w a => ⟨fun h => ⟨hp, h⟩, fun h => h.2⟩

theorem byte : Reads depth readByte (fun w b => w = [b]) := by
  intro c b c' hv hd
  unfold readByte
  rw [Cursor.getElem?_pos]
  constructor
  · intro h
    split at h
    · rename_i d hhd
      cases h
      obtain ⟨t, ht⟩ := List.head?_eq_some_iff.1 hhd
      exact ⟨[b], rfl, by rw [ht]; exact List.prefix_append [b] t, rfl⟩
    · cases h
  · rintro ⟨w, rfl, ⟨t, ht⟩, rfl⟩
    rw [← ht]
    rfl

theorem bytes (n : Nat) : Reads depth (readBytes n) (fun w bs => w = bs ∧ bs.length = n) := by
  intro c bs c' hv hd
  have hext : (c.input.extract c.pos (c.pos + n)).toList = c.ahead.take n := by
    rw [Array.toList_extract, List.extract_eq_take_drop, Cursor.ahead, Nat.add_sub_cancel_left]
  have hlen := Cursor.length_ahead c
  unfold Cursor.Valid at hv
  unfold readBytes
  rw [hext]
  constructor
  · intro h
    split at h
    · rename_i hle
      cases h
      have htake : (c.ahead.take n).length = n := by
        rw [List.length_take, hlen]
        omega
      exact ⟨_, ⟨rfl, htake⟩, List.take_prefix n _, by rw [htake]; rfl⟩
    · cases h
  · rintro ⟨w, ⟨rfl, rfl⟩, hw, rfl⟩
    have hle := hw.length_le
    rw [if_pos (by omega), ← List.prefix_iff_eq_take.1 hw]
    rfl

end Reads

/-! ## First readings -/

/-- Behind a success the rest is read. -/
theorem bind_of_ok {x : Decode α} {f : α → Decode β} {c m : Cursor} {a : α} (h : x c = .ok a m) :
    (x >>= f) c = f a m := by
  show EStateM.bind x f c = _
  rw [EStateM.bind, h]

/-- Behind an error nothing is read. -/
theorem bind_of_error {x : Decode α} {f : α → Decode β} {c m : Cursor} {e : DecodeError}
    (h : x c = .error e m) : (x >>= f) c = .error e m := by
  show EStateM.bind x f c = _
  rw [EStateM.bind, h]

theorem readByte_of_ahead {c : Cursor} {b : UInt8} (hv : c.Valid) (h : [b] <+: c.ahead) :
    readByte c = .ok b (c.advance 1) :=
  (Reads.byte c b _ hv rfl).2 ⟨[b], rfl, h, rfl⟩

/-! ## Repetition -/

section Repetition

variable {σ : Type} {step : σ → Decode (σ ⊕ α)} (hstep : AdvancesOn step) {s : σ} {c m : Cursor}

/-- A repetition is a turn, and the repetition from where the turn asks to go on. -/
theorem iterate_eq : iterate step hstep s c =
    (step s >>= Sum.elim (fun s' => iterate step hstep s') fun a => Pure.pure a) c := by
  show _ = EStateM.bind _ _ _
  rw [iterate, EStateM.bind]
  split
  · rename_i hr
    rw [hr]
    rfl
  · rename_i hr
    rw [hr]
    rfl
  · rename_i hr
    rw [hr]

theorem iterate_of_inl {s' : σ} (h : step s c = .ok (.inl s') m) :
    iterate step hstep s c = iterate step hstep s' m :=
  (iterate_eq hstep).trans (bind_of_ok h)

theorem iterate_of_inr {a : α} (h : step s c = .ok (.inr a) m) :
    iterate step hstep s c = .ok a m :=
  (iterate_eq hstep).trans (bind_of_ok h)

theorem iterate_of_error {e : DecodeError} (h : step s c = .error e m) :
    iterate step hstep s c = .error e m :=
  (iterate_eq hstep).trans (bind_of_error h)

end Repetition

/-! ## Items in a row -/

/-- Items are read one behind the other, behind those already there. -/
theorem Reads.items {depth : Nat} {item : Decode α} {G : Production α} (hi : Reads depth item G) :
    ∀ (n : Nat) (before : List α),
      Reads depth (readItems item n before)
        (fun w as => ∃ rest, Items G w rest ∧ rest.length = n ∧ as = before.reverse ++ rest) := by
  intro n
  induction n with
  | zero =>
    intro before
    refine (Reads.pure before.reverse).congr fun w as => ?_
    constructor
    · rintro ⟨rfl, rfl⟩
      exact ⟨[], .nil, rfl, (List.append_nil _).symm⟩
    · rintro ⟨rest, hr, hlen, rfl⟩
      obtain rfl := List.eq_nil_of_length_eq_zero hlen
      cases hr
      exact ⟨rfl, List.append_nil _⟩
  | succ n ih =>
    intro before
    refine (hi.bind fun a => ih (a :: before)).congr fun w as => ?_
    constructor
    · rintro ⟨u, v, a, rfl, ha, rest, hr, hlen, rfl⟩
      refine ⟨a :: rest, .cons ha hr, by rw [List.length_cons, hlen], ?_⟩
      rw [List.reverse_cons, List.append_assoc, List.singleton_append]
    · rintro ⟨rest, hr, hlen, rfl⟩
      cases hr with
      | nil => simp at hlen
      | @cons u v a rest ha hr =>
        refine ⟨u, v, a, rfl, ha, rest, hr, ?_, ?_⟩
        · rw [List.length_cons] at hlen
          omega
        · rw [List.reverse_cons, List.append_assoc, List.singleton_append]

end WasmPack.Binary
