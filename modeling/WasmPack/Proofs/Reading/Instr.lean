/-
  WasmPack.Proofs.Reading.Instr

  The reading of bodies accepts exactly their production.

  A body is read turn by turn, with the levels that wait for their `end` on a
  list.  `Turn` is what one turn accepts, and `Completes` a run of turns.  The
  grammar goes through the same bytes level by level: `Rest` says what is still
  to come of all levels.  The two agree because a turn takes away exactly the
  first piece of what is to come.
-/
import WasmPack.Proofs.Reading.Plain

namespace WasmPack.Binary

open Grammar Wasm

/-! ## Turns -/

/-- What one turn accepts, when the outermost body lies inside `depth` structured instructions. -/
inductive Turn (depth : Nat) : Body → List UInt8 → Body ⊕ (Opening × Expr) → Prop where
  | plain {b : Body} {w : List UInt8} {i : Instr} (h : PlainForm w i) :
      Turn depth b w (.inl { b with before := i :: b.before })
  | opening {b : Body} {op : UInt8} {t : List UInt8} {make : BlockType → Opening}
      {type : BlockType} (hd : depth + b.outer.length < maxNesting) (ho : opening? op = some make)
      (ht : BlockTypeForm t type) :
      Turn depth b (op :: t) (.inl ⟨make type, [], (b.opening, b.before) :: b.outer⟩)
  | close {o o' : Opening} {before before' : List Instr} {outer : List (Opening × List Instr)} :
      Turn depth ⟨o, before, (o', before') :: outer⟩ [0x0B]
        (.inl ⟨o', o.close before.reverse :: before', outer⟩)
  | alternative {t : BlockType} {before : List Instr} {outer : List (Opening × List Instr)} :
      Turn depth ⟨.consequent t, before, outer⟩ [0x05]
        (.inl ⟨.alternative t before.reverse, [], outer⟩)
  | finish {o : Opening} {before : List Instr} :
      Turn depth ⟨o, before, []⟩ [0x0B] (.inr (o, before.reverse))

/-- How many levels wait behind a turn. -/
def waiting : Body ⊕ (Opening × Expr) → Nat
  | .inl b => b.outer.length
  | .inr _ => 0

/-- The cursor behind a word, at a nesting. -/
def Cursor.moved (c : Cursor) (n depth : Nat) : Cursor := { c.advance n with depth }

theorem Cursor.moved_ahead (c : Cursor) (n depth : Nat) :
    (c.moved n depth).ahead = (c.advance n).ahead := rfl

/-! ## The first byte of a turn -/

/-- The opcodes in the tables are not those of structured instructions and their ends. -/
theorem not_structured_of_table (b : UInt8) :
    (LoadOp.ofOpcode? b).isSome ∨ (StoreOp.ofOpcode? b).isSome ∨ (NumericOp.ofOpcode? b).isSome →
      b ∉ [0x02, 0x03, 0x04, 0x05, 0x0B] := by
  intro h hb
  simp only [List.mem_cons, List.not_mem_nil, or_false] at hb
  obtain rfl | rfl | rfl | rfl | rfl := hb <;> exact absurd h (by decide)

/-- An instruction without a body does not begin like a structured one or its end. -/
theorem PlainForm.head {w : List UInt8} {i : Instr} (h : PlainForm w i) :
    ∃ b v, w = b :: v ∧ b ∉ [0x02, 0x03, 0x04, 0x05, 0x0B] := by
  cases h with
  | load hb =>
    exact ⟨_, _, rfl, not_structured_of_table _
      (.inl (Option.isSome_of_eq_some (load_ofOpcode?_iff.2 hb)))⟩
  | store hb =>
    exact ⟨_, _, rfl, not_structured_of_table _
      (.inr (.inl (Option.isSome_of_eq_some (store_ofOpcode?_iff.2 hb))))⟩
  | numeric hb =>
    exact ⟨_, _, rfl, not_structured_of_table _
      (.inr (.inr (Option.isSome_of_eq_some (numeric_ofOpcode?_iff.2 hb))))⟩
  | _ => exact ⟨_, _, rfl, by decide⟩

theorem opening?_eq_some_iff {b : UInt8} {make : BlockType → Opening} :
    opening? b = some make ↔
      (b = 0x02 ∧ make = .block) ∨ (b = 0x03 ∧ make = .loop) ∨ (b = 0x04 ∧ make = .consequent) := by
  constructor
  · intro h
    unfold opening? at h
    split at h <;> cases h
    · exact .inl ⟨rfl, rfl⟩
    · exact .inr (.inl ⟨rfl, rfl⟩)
    · exact .inr (.inr ⟨rfl, rfl⟩)
  · rintro (⟨rfl, rfl⟩ | ⟨rfl, rfl⟩ | ⟨rfl, rfl⟩) <;> rfl

theorem opening?_eq_none {b : UInt8} (h : b ∉ [0x02, 0x03, 0x04, 0x05, 0x0B]) :
    opening? b = none := by
  rw [Option.eq_none_iff_forall_ne_some]
  intro make hm
  obtain ⟨rfl, -⟩ | ⟨rfl, -⟩ | ⟨rfl, -⟩ := opening?_eq_some_iff.1 hm
  all_goals exact h (by decide)

/-! ## Reading an item -/

/-- An item is an instruction without a body, or the opcode and the type of a structured one. -/
theorem readItem_eq_ok_iff {c c' : Cursor} {item : Item} (hv : c.Valid) :
    readItem c = .ok item c' ↔
      (∃ w i, PlainForm w i ∧ w <+: c.ahead ∧ item = .plain i ∧ c' = c.advance w.length) ∨
      (∃ op t make type, c.depth < maxNesting ∧ opening? op = some make ∧ BlockTypeForm t type ∧
        op :: t <+: c.ahead ∧ item = .opening (make type) ∧
        c' = c.moved (t.length + 1) (c.depth + 1)) := by
  constructor
  · intro h
    obtain ⟨start, m, ⟨⟩, h⟩ := bind_eq_ok.1 h
    obtain ⟨op, m, hb, h⟩ := bind_eq_ok.1 h
    obtain ⟨w, rfl, hw, rfl⟩ := (Reads.byte c op m hv rfl).1 hb
    obtain ⟨rest, hrest⟩ := hw
    have hv₁ : (c.advance 1).Valid := hv.advance (w := [op]) ⟨rest, hrest⟩
    have ha₁ : (c.advance 1).ahead = rest := Cursor.ahead_advance_of_append hrest.symm
    cases ho : opening? op with
    -- An opening goes one level down before its type is read.
    | some make =>
      rw [ho] at h
      obtain ⟨_, m, he, h⟩ := bind_eq_ok.1 h
      unfold enter at he
      split at he
      · rename_i hd
        cases he
        have hv₂ : (c.moved 1 (c.depth + 1)).Valid := hv₁
        obtain ⟨type, m, ht, h⟩ := bind_eq_ok.1 h
        cases h
        obtain ⟨t, hform, hp, rfl⟩ :=
          (Reads.blockType (c.moved 1 (c.depth + 1)) type _ hv₂ rfl).1 ht
        rw [Cursor.moved_ahead, ha₁] at hp
        refine .inr ⟨op, t, make, type, hd, ho, hform, ?_, rfl, ?_⟩
        · rw [← hrest]
          exact (List.prefix_append_right_inj [op]).2 hp
        · rw [Nat.add_comm t.length 1]
          simp only [Cursor.moved, Cursor.advance, ← Nat.add_assoc]
      · cases he
    | none =>
      rw [ho] at h
      obtain ⟨i, m, hi, h⟩ := bind_eq_ok.1 h
      cases h
      obtain ⟨w, hw, hp, rfl⟩ := (Reads.plain c.pos op _ i _ hv₁ rfl).1 hi
      rw [ha₁] at hp
      refine .inl ⟨op :: w, i, hw, ?_, rfl, ?_⟩
      · rw [← hrest]
        exact (List.prefix_append_right_inj [op]).2 hp
      · rw [Cursor.advance_advance, List.length_cons, Nat.add_comm]
  · intro h
    refine bind_eq_ok.2 ⟨c.pos, c, rfl, ?_⟩
    obtain ⟨w, i, hw, hp, rfl, rfl⟩ | ⟨op, t, make, type, hd, ho, ht, hp, rfl, rfl⟩ := h
    -- No instruction without a body begins with the opcode of an opening.
    · obtain ⟨b, v, rfl, hb⟩ := PlainForm.head hw
      obtain ⟨rest, hrest⟩ := hp
      have hp₁ : [b] <+: c.ahead := ⟨v ++ rest, hrest⟩
      have ha₁ : (c.advance 1).ahead = v ++ rest :=
        Cursor.ahead_advance_of_append (u := [b]) hrest.symm
      refine bind_eq_ok.2 ⟨b, c.advance 1, (Reads.byte c b _ hv rfl).2 ⟨[b], rfl, hp₁, rfl⟩, ?_⟩
      rw [opening?_eq_none hb]
      refine bind_eq_ok.2 ⟨i, (c.advance 1).advance v.length, ?_, ?_⟩
      · refine (Reads.plain c.pos b _ i _ (hv.advance hp₁) rfl).2 ⟨v, hw, ?_, rfl⟩
        show v <+: (c.advance 1).ahead
        rw [ha₁]
        exact List.prefix_append v rest
      · rw [Cursor.advance_advance, List.length_cons, Nat.add_comm]
        rfl
    · obtain ⟨rest, hrest⟩ := hp
      have hp₁ : [op] <+: c.ahead := ⟨t ++ rest, hrest⟩
      have ha₁ : (c.advance 1).ahead = t ++ rest :=
        Cursor.ahead_advance_of_append (u := [op]) hrest.symm
      refine bind_eq_ok.2 ⟨op, c.advance 1, (Reads.byte c op _ hv rfl).2 ⟨[op], rfl, hp₁, rfl⟩, ?_⟩
      rw [ho]
      refine bind_eq_ok.2 ⟨(), c.moved 1 (c.depth + 1), ?_, ?_⟩
      · exact if_pos hd
      have hv₁ : (c.moved 1 (c.depth + 1)).Valid := hv.advance hp₁
      refine bind_eq_ok.2 ⟨type, (c.moved 1 (c.depth + 1)).advance t.length, ?_, ?_⟩
      · refine (Reads.blockType _ type _ hv₁ rfl).2 ⟨t, ht, ?_, rfl⟩
        rw [Cursor.moved_ahead, ha₁]
        exact List.prefix_append t rest
      · rw [Nat.add_comm t.length 1]
        simp only [Cursor.moved, Cursor.advance, ← Nat.add_assoc]
        rfl

/-! ## Reading a turn -/

theorem peek_bind {α : Type} {f : Option UInt8 → Decode α} {c : Cursor} :
    (peek >>= f) c = f c.ahead.head? c := by
  rw [← Cursor.getElem?_pos]
  rfl

/-- Whatever a turn accepts has a first byte. -/
theorem Turn.ne_nil {depth : Nat} {b : Body} {w : List UInt8} {r : Body ⊕ (Opening × Expr)}
    (h : Turn depth b w r) : w ≠ [] := by
  cases h with
  | plain h =>
    obtain ⟨_, _, rfl, -⟩ := PlainForm.head h
    exact List.cons_ne_nil _ _
  | _ => exact List.cons_ne_nil _ _

/-- What a turn accepts is read. -/
theorem Turn.read_eq {depth : Nat} {b : Body} {c : Cursor} {r : Body ⊕ (Opening × Expr)}
    {w : List UInt8} (h : Turn depth b w r) (hv : c.Valid) (hd : c.depth = depth + b.outer.length)
    (hp : w <+: c.ahead) : b.read c = .ok r (c.moved w.length (depth + waiting r)) := by
  have hread : b.read c = _ := peek_bind
  have hself : ∀ n, c.advance n = c.moved n (depth + b.outer.length) := fun n => by
    rw [← hd]
    rfl
  obtain ⟨op, v, rfl⟩ : ∃ op v, w = op :: v := List.exists_cons_of_ne_nil h.ne_nil
  obtain ⟨rest, hrest⟩ := hp
  rw [hread, ← hrest]
  have hbyte := readByte_of_ahead hv ⟨v ++ rest, hrest⟩
  -- Two opcodes are looked at before anything is read; the first byte of an item is neither.
  cases h with
  | @plain _ _ i h =>
    obtain ⟨b', v', hb', hne⟩ := PlainForm.head h
    cases hb'
    have hend : op ≠ endOpcode := by
      rintro rfl
      exact hne (by decide)
    have helse : op ≠ elseOpcode := by
      rintro rfl
      exact hne (by decide)
    show (if op = endOpcode then _ else if op = elseOpcode then _ else _ : Decode _) c = _
    rw [if_neg hend, if_neg helse, bind_of_ok ((readItem_eq_ok_iff hv).2
      (.inl ⟨_, i, h, ⟨rest, hrest⟩, rfl, rfl⟩)), hself]
    rfl
  | @opening _ _ t make type hlt ho ht =>
    have hne : op ≠ endOpcode ∧ op ≠ elseOpcode := by
      obtain ⟨rfl, -⟩ | ⟨rfl, -⟩ | ⟨rfl, -⟩ := opening?_eq_some_iff.1 ho <;> decide
    show (if op = endOpcode then _ else if op = elseOpcode then _ else _ : Decode _) c = _
    rw [if_neg hne.1, if_neg hne.2, bind_of_ok ((readItem_eq_ok_iff hv).2
      (.inr ⟨op, v, make, type, hd ▸ hlt, ho, ht, ⟨rest, hrest⟩, rfl, rfl⟩)), hd]
    rfl
  | @close o o' before before' outer =>
    show (readByte >>= fun _ => _) c = _
    rw [bind_of_ok hbyte]
    show EStateM.Result.ok _ { c.advance 1 with depth := c.depth - 1 } = _
    rw [hd]
    rfl
  | alternative =>
    show (readByte >>= fun _ => _) c = _
    rw [bind_of_ok hbyte, hself]
    rfl
  | finish =>
    show (readByte >>= fun _ => _) c = _
    rw [bind_of_ok hbyte, hself]
    rfl

/-- What is read in a turn is accepted. -/
theorem turn_of_read_eq {depth : Nat} {b : Body} {c c' : Cursor} {r : Body ⊕ (Opening × Expr)}
    (hv : c.Valid) (hd : c.depth = depth + b.outer.length) (h : b.read c = .ok r c') :
    ∃ w, Turn depth b w r ∧ w <+: c.ahead ∧ c' = c.moved w.length (depth + waiting r) := by
  have hread : b.read c = _ := peek_bind
  rw [hread] at h
  cases hahead : c.ahead with
  | nil =>
    rw [hahead] at h
    cases h
  | cons op rest =>
    rw [hahead] at h
    have hp : [op] <+: op :: rest := ⟨rest, rfl⟩
    have hbyte := readByte_of_ahead hv (hahead ▸ hp)
    -- Whatever the turn is, it comes out as `Turn.read_eq` says.
    have hfind : ∀ {w r'}, Turn depth b w r' → w <+: op :: rest → b.read c = .ok r c' →
        ∃ w, Turn depth b w r ∧ w <+: op :: rest ∧ c' = c.moved w.length (depth + waiting r) := by
      intro w r' ht hw hr
      rw [ht.read_eq hv hd (hahead ▸ hw)] at hr
      cases hr
      exact ⟨w, ht, hw, rfl⟩
    have hr : b.read c = .ok r c' := by rw [hread, hahead]; exact h
    by_cases hend : op = endOpcode
    · subst hend
      obtain ⟨o, before, outer⟩ := b
      cases outer with
      | nil => exact hfind .finish hp hr
      | cons level outer => exact hfind .close hp hr
    by_cases helse : op = elseOpcode
    · subst helse
      obtain ⟨o, before, outer⟩ := b
      cases o with
      | consequent t => exact hfind .alternative hp hr
      | _ =>
        have h : (readByte >>= fun _ => failBehind .endExpected : Decode _) c = .ok r c' := h
        rw [bind_of_ok hbyte] at h
        cases h
    have h : (if op = endOpcode then _ else if op = elseOpcode then _ else _ : Decode _) c =
      .ok r c' := h
    rw [if_neg hend, if_neg helse] at h
    obtain ⟨item, m, hi, -⟩ := bind_eq_ok.1 h
    obtain ⟨w, i, hw, hpw, -⟩ | ⟨op', t, make, type, hlt, ho, ht, hpt, -⟩ :=
      (readItem_eq_ok_iff hv).1 hi
    · exact hfind (.plain hw) (hahead ▸ hpw) hr
    · exact hfind (.opening (hd ▸ hlt) ho ht) (hahead ▸ hpt) hr

/-! ## Runs of turns -/

/-- What the turns up to the end of the outermost body accept. -/
inductive Completes (depth : Nat) : Body → List UInt8 → Opening × Expr → Prop where
  | last {b : Body} {w : List UInt8} {r : Opening × Expr} (h : Turn depth b w (.inr r)) :
      Completes depth b w r
  | step {b b' : Body} {u v : List UInt8} {r : Opening × Expr} (h : Turn depth b u (.inl b'))
      (rest : Completes depth b' v r) : Completes depth b (u ++ v) r

theorem Cursor.moved_valid {c : Cursor} (hv : c.Valid) {w : List UInt8} (h : w <+: c.ahead)
    (depth : Nat) : (c.moved w.length depth).Valid := hv.advance h

/-- Turns that accept a word read it. -/
theorem Completes.iterate_eq {depth : Nat} {b : Body} {w : List UInt8} {r : Opening × Expr}
    (h : Completes depth b w r) {c : Cursor} (hv : c.Valid)
    (hd : c.depth = depth + b.outer.length) (hp : w <+: c.ahead) :
    iterate Body.read (Advances.on advances_read) b c = .ok r (c.moved w.length depth) := by
  induction h generalizing c with
  | last h => exact iterate_of_inr _ (h.read_eq hv hd hp)
  | @step b b' u v r h rest ih =>
    obtain ⟨t, ht⟩ := hp
    rw [List.append_assoc] at ht
    have hu : u <+: c.ahead := ⟨v ++ t, ht⟩
    have hv' : v <+: (c.moved u.length (depth + b'.outer.length)).ahead := by
      rw [Cursor.moved_ahead, Cursor.ahead_advance_of_append ht.symm]
      exact List.prefix_append v t
    have hrun := ih (Cursor.moved_valid hv hu _) rfl hv'
    rw [iterate_of_inl _ (h.read_eq hv hd hu), List.length_append]
    simp only [Cursor.moved, Cursor.advance, Nat.add_assoc, waiting] at hrun ⊢
    exact hrun

/-- What turns read they accept. -/
theorem completes_of_iterate_eq {depth : Nat} {b : Body} {r : Opening × Expr} {c c' : Cursor}
    (hv : c.Valid) (hd : c.depth = depth + b.outer.length)
    (h : iterate Body.read (Advances.on advances_read) b c = .ok r c') :
    ∃ w, Completes depth b w r ∧ w <+: c.ahead ∧ c' = c.moved w.length depth := by
  -- The induction is on the bytes ahead, which every turn makes fewer.
  induction hn : c.remaining using Nat.strongRecOn generalizing b c with
  | _ n ih =>
    rw [iterate] at h
    split at h
    · rename_i b' m hr
      have hlt := advances_read b c (.inl b') m hr
      obtain ⟨u, ht, hu, rfl⟩ := turn_of_read_eq hv hd hr
      obtain ⟨v, hc, hv', rfl⟩ := ih _ (hn ▸ hlt) (Cursor.moved_valid hv hu _) rfl h rfl
      obtain ⟨t, ht'⟩ := hu
      rw [Cursor.moved_ahead, Cursor.ahead_advance_of_append ht'.symm] at hv'
      refine ⟨u ++ v, .step ht hc, ?_, ?_⟩
      · rw [← ht']
        exact (List.prefix_append_right_inj u).2 hv'
      · simp only [Cursor.moved, Cursor.advance, List.length_append, Nat.add_assoc]
    · rename_i a m hr
      cases h
      obtain ⟨w, ht, hw, rfl⟩ := turn_of_read_eq hv hd hr
      exact ⟨w, .last ht, hw, rfl⟩
    · cases h

/-! ## Turns and levels -/

/-- What is to come of one level, from behind the instructions that were read of it up to its
    `end`: the opening which that `end` closes, and the whole body. -/
inductive LevelForm (depth : Nat) : Opening → List Instr → List UInt8 → Opening → Expr → Prop where
  | done {o : Opening} {before : List Instr} {u : List UInt8} {is : Expr}
      (h : BodyForm depth u is) : LevelForm depth o before (u ++ [0x0B]) o (before.reverse ++ is)
  | alternative {t : BlockType} {before : List Instr} {u v : List UInt8} {is js : Expr}
      (hf : BodyForm depth u is) (hs : BodyForm depth v js) :
      LevelForm depth (.consequent t) before (u ++ 0x05 :: (v ++ [0x0B]))
        (.alternative t (before.reverse ++ is)) js

/-- What is to come of all levels. -/
inductive Rest (depth : Nat) : Body → List UInt8 → Opening × Expr → Prop where
  | outermost {o o' : Opening} {before : List Instr} {w : List UInt8} {body : Expr}
      (h : LevelForm depth o before w o' body) : Rest depth ⟨o, before, []⟩ w (o', body)
  | inner {o o' p : Opening} {before around : List Instr} {outer : List (Opening × List Instr)}
      {u v : List UInt8} {body : Expr} {r : Opening × Expr}
      (h : LevelForm (depth + (outer.length + 1)) o before u o' body)
      (rest : Rest depth ⟨p, o'.close body :: around, outer⟩ v r) :
      Rest depth ⟨o, before, (p, around) :: outer⟩ (u ++ v) r

/-- An instruction in front of what is to come of a level. -/
theorem LevelForm.cons {depth : Nat} {o o' : Opening} {before : List Instr} {i : Instr}
    {u v : List UInt8} {body : Expr} (hi : InstrForm depth u i)
    (h : LevelForm depth o (i :: before) v o' body) :
    LevelForm depth o before (u ++ v) o' body := by
  cases h with
  | done h =>
    rw [List.reverse_cons, List.append_assoc, List.singleton_append, ← List.append_assoc]
    exact .done (.cons hi h)
  | alternative hf hs =>
    rw [List.reverse_cons, List.append_assoc, List.singleton_append, ← List.append_assoc]
    exact .alternative (.cons hi hf) hs

/-- An instruction in front of what is to come of all levels. -/
theorem Rest.cons {depth : Nat} {o : Opening} {before : List Instr} {i : Instr}
    {outer : List (Opening × List Instr)} {u v : List UInt8} {r : Opening × Expr}
    (hi : InstrForm (depth + outer.length) u i) (h : Rest depth ⟨o, i :: before, outer⟩ v r) :
    Rest depth ⟨o, before, outer⟩ (u ++ v) r := by
  cases h with
  | outermost h => exact .outermost (.cons hi h)
  | inner h rest =>
    rw [← List.append_assoc]
    exact .inner (.cons hi h) rest

/-- A structured instruction is its opcode, its type and its level. -/
theorem LevelForm.instr {depth : Nat} {op : UInt8} {make : BlockType → Opening} {type : BlockType}
    {t u : List UInt8} {o : Opening} {body : Expr} (hd : depth < maxNesting)
    (ho : opening? op = some make) (ht : BlockTypeForm t type)
    (h : LevelForm (depth + 1) (make type) [] u o body) :
    InstrForm depth (op :: (t ++ u)) (o.close body) := by
  obtain ⟨rfl, rfl⟩ | ⟨rfl, rfl⟩ | ⟨rfl, rfl⟩ := opening?_eq_some_iff.1 ho
  · cases h with
    | done h => exact .block hd ht h
  · cases h with
    | done h => exact .loop hd ht h
  · cases h with
    | done h => exact .ifThen hd ht h
    | alternative hf hs => exact .ifElse hd ht hf hs

/-- What the turns accept is what is to come of the levels. -/
theorem Completes.rest {depth : Nat} {b : Body} {w : List UInt8} {r : Opening × Expr}
    (h : Completes depth b w r) : Rest depth b w r := by
  induction h with
  | last h =>
    cases h with
    | @finish o before =>
      have hend : LevelForm depth o before ([] ++ [0x0B]) o (before.reverse ++ []) := .done .nil
      rw [List.append_nil] at hend
      exact .outermost hend
  | step h rest ih =>
    cases h with
    | plain h => exact .cons (.plain h) ih
    | opening hd ho ht =>
      cases ih with
      | inner h rest =>
        rw [← List.append_assoc, List.cons_append]
        exact .cons (h.instr hd ho ht) rest
    | @close o o' before before' outer =>
      have hend : LevelForm (depth + (outer.length + 1)) o before ([] ++ [0x0B]) o
        (before.reverse ++ []) := .done .nil
      rw [List.append_nil] at hend
      exact .inner hend ih
    | @alternative t before outer =>
      -- The second arm is read to its `end`: it cannot have a second `else`.
      have harm : ∀ {d u o body}, LevelForm d (.alternative t before.reverse) [] u o body →
          LevelForm d (.consequent t) before ([0x05] ++ u) o body := by
        intro d u o body h
        cases h with
        | @done _ _ u is h =>
          have hall : LevelForm d (.consequent t) before ([] ++ 0x05 :: (u ++ [0x0B]))
            (.alternative t (before.reverse ++ [])) is := .alternative .nil h
          rw [List.append_nil] at hall
          exact hall
      cases ih with
      | outermost h => exact .outermost (harm h)
      | inner h rest =>
        rw [← List.append_assoc]
        exact .inner (harm h) rest

/-- A turn goes through the opcode and the type of a structured instruction. -/
theorem Completes.opening {depth : Nat} {o : Opening} {before : List Instr}
    {outer : List (Opening × List Instr)} {op : UInt8} {make : BlockType → Opening}
    {type : BlockType} {t v : List UInt8} {r : Opening × Expr}
    (hd : depth + outer.length < maxNesting) (ho : opening? op = some make)
    (ht : BlockTypeForm t type)
    (h : Completes depth ⟨make type, [], (o, before) :: outer⟩ v r) :
    Completes depth ⟨o, before, outer⟩ (op :: t ++ v) r :=
  .step (.opening (b := ⟨o, before, outer⟩) hd ho ht) h

/-- A turn goes through the `end` of a structured instruction. -/
theorem Completes.close {depth : Nat} {o o' : Opening} {before : List Instr} {is : Expr}
    {outer : List (Opening × List Instr)} {v : List UInt8} {r : Opening × Expr}
    (h : Completes depth ⟨o', o.close is :: before, outer⟩ v r) :
    Completes depth ⟨o, is.reverse ++ [], (o', before) :: outer⟩ ([0x0B] ++ v) r := by
  refine .step .close ?_
  rw [List.append_nil, List.reverse_reverse]
  exact h

mutual

/-- The turns go through an instruction. -/
theorem InstrForm.completes {depth d : Nat} {w : List UInt8} {i : Instr} (hi : InstrForm d w i)
    {o : Opening} {before : List Instr} {outer : List (Opening × List Instr)} {v : List UInt8}
    {r : Opening × Expr} (hd : d = depth + outer.length)
    (h : Completes depth ⟨o, i :: before, outer⟩ v r) :
    Completes depth ⟨o, before, outer⟩ (w ++ v) r := by
  have hinner : d + 1 = depth + (outer.length + 1) := by omega
  match hi with
  | .plain hp => exact .step (.plain hp) h
  | .block (t := t) (u := u) hlt ht hb =>
    rw [← List.cons_append, List.append_assoc, List.append_assoc]
    refine .opening (hd ▸ hlt) rfl ht (BodyForm.completes hb hinner ?_)
    exact .close (o := .block _) h
  | .loop (t := t) (u := u) hlt ht hb =>
    rw [← List.cons_append, List.append_assoc, List.append_assoc]
    refine .opening (hd ▸ hlt) rfl ht (BodyForm.completes hb hinner ?_)
    exact .close (o := .loop _) h
  | .ifThen (t := t) (u := u) hlt ht hb =>
    rw [← List.cons_append, List.append_assoc, List.append_assoc]
    refine .opening (hd ▸ hlt) rfl ht (BodyForm.completes hb hinner ?_)
    exact .close (o := .consequent _) h
  | @InstrForm.ifElse _ t u v' _ first _ hlt ht hf hs =>
    have hassoc : 0x05 :: (v' ++ [0x0B]) ++ v = [0x05] ++ (v' ++ ([0x0B] ++ v)) := by
      rw [List.cons_append, List.append_assoc]
      rfl
    rw [← List.cons_append, List.append_assoc, List.append_assoc, hassoc]
    refine .opening (hd ▸ hlt) rfl ht (BodyForm.completes hf hinner ?_)
    refine .step (u := [0x05]) .alternative (BodyForm.completes hs hinner ?_)
    rw [List.append_nil, List.reverse_reverse]
    exact .close (o := .alternative _ first) h

/-- The turns go through the instructions of a body. -/
theorem BodyForm.completes {depth d : Nat} {w : List UInt8} {is : Expr} (hb : BodyForm d w is)
    {o : Opening} {before : List Instr} {outer : List (Opening × List Instr)} {v : List UInt8}
    {r : Opening × Expr} (hd : d = depth + outer.length)
    (h : Completes depth ⟨o, is.reverse ++ before, outer⟩ v r) :
    Completes depth ⟨o, before, outer⟩ (w ++ v) r := by
  match hb with
  | .nil => exact h
  | .cons head tail =>
    rw [List.append_assoc]
    refine InstrForm.completes head hd (BodyForm.completes tail hd ?_)
    rw [List.reverse_cons, List.append_assoc, List.singleton_append] at h
    exact h

end

/-! ## Bodies -/

/-- The turns go through a level around which no construct is open. -/
theorem LevelForm.completes {depth : Nat} {o o' : Opening} {w : List UInt8} {body : Expr}
    (h : LevelForm depth o [] w o' body) : Completes depth ⟨o, [], []⟩ w (o', body) := by
  have hend : ∀ (o : Opening) (is : Expr),
      Completes depth ⟨o, is.reverse ++ [], []⟩ [0x0B] (o, is) := by
    intro o is
    have hlast : Completes depth ⟨o, is.reverse, []⟩ [0x0B] (o, is.reverse.reverse) := .last .finish
    rwa [List.reverse_reverse, ← List.append_nil is.reverse] at hlast
  cases h with
  | done hb => exact BodyForm.completes hb rfl (hend _ _)
  | @alternative t _ u v is _ hf hs =>
    have harms : Completes depth ⟨.consequent t, is.reverse ++ [], []⟩ ([0x05] ++ (v ++ [0x0B]))
        (.alternative t ([].reverse ++ is), body) := by
      have hturn : Turn depth ⟨.consequent t, is.reverse ++ [], []⟩ [0x05]
          (.inl ⟨.alternative t (is.reverse ++ []).reverse, [], []⟩) := .alternative
      rw [List.append_nil, List.reverse_reverse] at hturn
      rw [List.append_nil]
      exact .step hturn (BodyForm.completes hs rfl (hend _ _))
    exact BodyForm.completes hf rfl harms

/-- The reading of a body accepts exactly what is to come of its level. -/
theorem Reads.body (depth : Nat) (o : Opening) :
    Reads depth (readBody o) (fun w r => LevelForm depth o [] w r.1 r.2) := by
  intro c r c' hv hd
  have hd' : c.depth = depth + (Body.mk o [] []).outer.length := hd
  have hmoved : ∀ n, c.moved n depth = c.advance n := by
    intro n
    rw [← hd]
    rfl
  constructor
  · intro h
    obtain ⟨w, hw, hp, rfl⟩ := completes_of_iterate_eq hv hd' h
    refine ⟨w, ?_, hp, hmoved _⟩
    cases hw.rest with
    | outermost hlevel => exact hlevel
  · rintro ⟨w, hlevel, hp, rfl⟩
    rw [← hmoved]
    exact hlevel.completes.iterate_eq hv hd' hp

/-! ## Expressions -/

/-- The reading of an expression accepts exactly the expressions. -/
theorem Reads.expr (depth : Nat) : Reads depth readExpr (ExprForm depth) := by
  refine ((Reads.body depth (.block .empty)).bind fun r => Reads.pure r.2).congr fun w body => ?_
  constructor
  · rintro ⟨u, v, ⟨o, is⟩, rfl, hlevel, rfl, rfl⟩
    rw [List.append_nil]
    -- No construct is open around an expression, so its end is that of the outermost level.
    cases hlevel with
    | done hb => exact ⟨_, rfl, hb⟩
  · rintro ⟨u, rfl, hb⟩
    exact ⟨u ++ [0x0B], [], (.block .empty, body), (List.append_nil _).symm, .done hb, rfl, rfl⟩

/-! ## Instructions -/

/-- An instruction has no body, or is an opcode, a type and a level. -/
theorem instrForm_iff {depth : Nat} {w : List UInt8} {i : Instr} : InstrForm depth w i ↔
    PlainForm w i ∨ ∃ op t u make type o body, depth < maxNesting ∧ opening? op = some make ∧
      BlockTypeForm t type ∧ LevelForm (depth + 1) (make type) [] u o body ∧
      w = op :: (t ++ u) ∧ i = o.close body := by
  constructor
  · intro h
    cases h with
    | plain h => exact .inl h
    | block hd ht hb => exact .inr ⟨_, _, _, _, _, _, _, hd, rfl, ht, .done hb, rfl, rfl⟩
    | loop hd ht hb => exact .inr ⟨_, _, _, _, _, _, _, hd, rfl, ht, .done hb, rfl, rfl⟩
    | ifThen hd ht hb => exact .inr ⟨_, _, _, _, _, _, _, hd, rfl, ht, .done hb, rfl, rfl⟩
    | ifElse hd ht hf hs =>
      exact .inr ⟨_, _, _, _, _, _, _, hd, rfl, ht, .alternative hf hs, rfl, rfl⟩
  · rintro (h | ⟨op, t, u, make, type, o, body, hd, ho, ht, hlevel, rfl, rfl⟩)
    · exact .plain h
    · exact hlevel.instr hd ho ht

/-- The reading of an instruction accepts exactly the instructions. -/
theorem Reads.instr (depth : Nat) : Reads depth readInstr (InstrForm depth) := by
  intro c i c' hv hd
  subst hd
  -- Behind the item of a structured instruction its level is read, one nesting further in.
  have hlevel : ∀ {op t u}, op :: t <+: c.ahead →
      (u <+: (c.moved (t.length + 1) (c.depth + 1)).ahead ↔ op :: (t ++ u) <+: c.ahead) := by
    rintro op t u ⟨rest, hrest⟩
    have hahead : (c.moved (t.length + 1) (c.depth + 1)).ahead = rest :=
      Cursor.ahead_advance_of_append (u := op :: t) hrest.symm
    rw [hahead, ← hrest, ← List.cons_append, List.prefix_append_right_inj]
  have hback : ∀ (op : UInt8) (t u : List UInt8),
      { (c.moved (t.length + 1) (c.depth + 1)).advance u.length with depth := c.depth } =
        c.advance (op :: (t ++ u)).length := by
    intro op t u
    rw [List.length_cons, List.length_append, Nat.add_right_comm, ← Cursor.advance_advance]
    rfl
  constructor
  · intro h
    obtain ⟨item, m, hitem, h⟩ := bind_eq_ok.1 h
    obtain ⟨w, i', hw, hp, rfl, rfl⟩ | ⟨op, t, make, type, hd, ho, ht, hp, rfl, rfl⟩ :=
      (readItem_eq_ok_iff hv).1 hitem
    · cases h
      exact ⟨w, .plain hw, hp, rfl⟩
    · obtain ⟨⟨o, body⟩, m, hbody, h⟩ := bind_eq_ok.1 h
      obtain ⟨u, hform, hu, rfl⟩ :=
        (Reads.body (c.depth + 1) _ _ _ _ (Cursor.moved_valid hv hp _) rfl).1 hbody
      cases h
      exact ⟨op :: (t ++ u), hform.instr hd ho ht, (hlevel hp).1 hu, hback op t u⟩
  · rintro ⟨w, hw, hp, rfl⟩
    obtain hw | ⟨op, t, u, make, type, o, body, hd, ho, ht, hform, rfl, rfl⟩ := instrForm_iff.1 hw
    · exact bind_eq_ok.2 ⟨_, _, (readItem_eq_ok_iff hv).2 (.inl ⟨w, i, hw, hp, rfl, rfl⟩), rfl⟩
    · have hp₁ : op :: t <+: c.ahead := (List.prefix_append (op :: t) u).trans hp
      refine bind_eq_ok.2 ⟨_, _, (readItem_eq_ok_iff hv).2
        (.inr ⟨op, t, make, type, hd, ho, ht, hp₁, rfl, rfl⟩), ?_⟩
      have hbody := (Reads.body (c.depth + 1) (make type) _ (o, body) _
        (Cursor.moved_valid hv hp₁ _) rfl).2 ⟨u, hform, (hlevel hp₁).2 hp, rfl⟩
      exact bind_eq_ok.2 ⟨_, _, hbody, congrArg (EStateM.Result.ok _) (hback op t u)⟩

end WasmPack.Binary
