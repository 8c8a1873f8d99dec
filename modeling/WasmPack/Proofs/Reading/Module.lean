/-
  WasmPack.Proofs.Reading.Module

  The decoder accepts exactly the modules.

  From the preamble on, what is read is a chain that goes on to the end of the
  input: every link takes as much as it can, and whether a section is there is
  told by the byte ahead alone.  `Finishes` says what the rest of the chain
  accepts, and a link may be put in front of it when what it leaves cannot begin
  with the byte by which the link tells that there is more.
-/
import WasmPack.Binary.Module
import WasmPack.Proofs.Reading.Section

namespace WasmPack.Binary

open Grammar Wasm

/-! ## Custom sections -/

/-- A custom section is skipped when there is one. -/
theorem skipCustom_eq_inl_iff {c c' : Cursor} (hv : c.Valid) :
    skipCustom c = .ok (.inl ()) c' ↔
      ∃ w, CustomForm w ∧ w <+: c.ahead ∧ c' = c.advance w.length := by
  have hread : skipCustom c = _ := peek_bind
  rw [hread]
  constructor
  · intro h
    split at h
    · rename_i hhead
      obtain ⟨rest, hrest⟩ := List.head?_eq_some_iff.1 hhead
      have hp₁ : [customId] <+: c.ahead := ⟨rest, hrest.symm⟩
      rw [bind_of_ok (readByte_of_ahead hv hp₁)] at h
      obtain ⟨size, m, hs, h⟩ := bind_eq_ok.1 h
      have hv₁ : (c.advance 1).Valid := hv.advance hp₁
      obtain ⟨s, hsize, hps, rfl⟩ := (Reads.u32 _ size m hv₁ rfl).1 hs
      obtain ⟨_, m, ⟨⟩, h⟩ := bind_eq_ok.1 h
      obtain ⟨name, m, hn, h⟩ := bind_eq_ok.1 h
      have hv₂ := hv₁.advance hps
      obtain ⟨u, hname, hpu, rfl⟩ := (Reads.name _ name m hv₂ rfl).1 hn
      have hv₃ := hv₂.advance hpu
      obtain ⟨_, m, hskip, h⟩ := bind_eq_ok.1 h
      cases h
      obtain ⟨_, m, ⟨⟩, hskip⟩ := bind_eq_ok.1 hskip
      -- The rest of the section is what lies ahead of the name, up to where the size says.
      split at hskip
      · cases hskip
      rename_i hfits
      unfold skipTo at hskip
      split at hskip
      · rename_i hstop
        cases hskip
        obtain ⟨t₁, ht₁⟩ := hps
        obtain ⟨t₂, ht₂⟩ := hpu
        have ha₁ : (c.advance 1).ahead = rest :=
          Cursor.ahead_advance_of_append (u := [customId]) hrest
        rw [Cursor.ahead_advance_of_append ht₁.symm] at ht₂
        rw [ha₁] at ht₁
        have hahead : c.ahead = customId :: (s ++ (u ++ t₂)) := by rw [hrest, ← ht₁, ← ht₂]
        have hlen := Cursor.length_ahead c
        rw [hahead] at hlen
        simp only [List.length_cons, List.length_append] at hlen
        simp only [Cursor.advance_pos] at hfits hstop
        have hstop : c.pos + 1 + s.length + size.toNat ≤ c.input.size := hstop
        unfold Cursor.Valid at hv
        have htake : (t₂.take (size.toNat - u.length)).length = size.toNat - u.length := by
          rw [List.length_take]
          omega
        refine ⟨customId :: (s ++ (u ++ t₂.take (size.toNat - u.length))), .mk hsize hname ?_, ?_,
          ?_⟩
        · rw [List.length_append, htake]
          omega
        · rw [hahead]
          refine (List.prefix_append_right_inj [customId]).2 ?_
          refine (List.prefix_append_right_inj s).2 ((List.prefix_append_right_inj u).2 ?_)
          exact List.take_prefix _ _
        · simp only [Cursor.advance, List.length_cons, List.length_append, htake]
          congr 1
          omega
      · cases hskip
    · cases h
  · rintro ⟨_, ⟨hs, hn, fits⟩, ⟨t, ht⟩, rfl⟩
    rename_i s u v size name
    have hhead : c.ahead.head? = some customId := by rw [← ht]; rfl
    rw [if_pos hhead]
    have ht : c.ahead = [customId] ++ (s ++ (u ++ (v ++ t))) := by
      rw [← ht]
      simp [customId]
    have hp₁ : [customId] <+: c.ahead := ⟨_, ht.symm⟩
    have hv₁ : (c.advance 1).Valid := hv.advance hp₁
    have ha₁ : (c.advance 1).ahead = s ++ (u ++ (v ++ t)) :=
      Cursor.ahead_advance_of_append (u := [customId]) ht
    have hps : s <+: (c.advance 1).ahead := ⟨_, ha₁.symm⟩
    have ha₂ := Cursor.ahead_advance_of_append ha₁
    have hpu : u <+: ((c.advance 1).advance s.length).ahead := ⟨_, ha₂.symm⟩
    rw [bind_of_ok (readByte_of_ahead hv hp₁),
      bind_of_ok ((Reads.u32 _ size _ hv₁ rfl).2 ⟨s, hs, hps, rfl⟩)]
    refine bind_eq_ok.2 ⟨_, _, rfl, ?_⟩
    rw [bind_of_ok ((Reads.name _ name _ (hv₁.advance hps) rfl).2 ⟨u, hn, hpu, rfl⟩)]
    have hlen := Cursor.length_ahead c
    rw [ht] at hlen
    simp only [List.length_append, List.length_singleton] at hlen
    rw [List.length_append] at fits
    refine bind_eq_ok.2 ⟨(), _, ?_, rfl⟩
    refine bind_eq_ok.2 ⟨_, _, rfl, ?_⟩
    rw [if_neg, skipTo, if_pos]
    · simp only [Cursor.advance, List.length_cons, List.length_append]
      congr 2
      omega
    · show c.pos + 1 + s.length + size.toNat ≤ c.input.size
      omega
    · simp only [Cursor.advance_pos]
      omega

/-- No custom section is skipped when none comes next. -/
theorem skipCustom_eq_inr_iff {c c' : Cursor} :
    skipCustom c = .ok (.inr ()) c' ↔ c.ahead.head? ≠ some customId ∧ c' = c := by
  have hread : skipCustom c = _ := peek_bind
  rw [hread]
  constructor
  · intro h
    split at h
    · obtain ⟨_, m, -, h⟩ := bind_eq_ok.1 h
      obtain ⟨_, m, -, h⟩ := bind_eq_ok.1 h
      obtain ⟨_, m, -, h⟩ := bind_eq_ok.1 h
      obtain ⟨_, m, -, h⟩ := bind_eq_ok.1 h
      obtain ⟨_, m, -, h⟩ := bind_eq_ok.1 h
      cases h
    · rename_i hhead
      cases h
      exact ⟨hhead, rfl⟩
  · rintro ⟨hhead, rfl⟩
    rw [if_neg hhead]
    rfl

/-- All custom sections that come next are skipped. -/
theorem skipCustoms_eq_ok_iff {c c' : Cursor} (hv : c.Valid) :
    skipCustoms c = .ok () c' ↔
      ∃ w, CustomsForm w ∧ w <+: c.ahead ∧ c' = c.advance w.length ∧
        c'.ahead.head? ≠ some customId := by
  constructor
  · intro h
    -- The induction is on the bytes ahead, which every section skipped makes fewer.
    induction hn : c.remaining using Nat.strongRecOn generalizing c with
    | _ n ih =>
      unfold skipCustoms at h
      rw [iterate] at h
      split at h
      · rename_i m hr
        have hlt := advancesOn_skipCustom () c () m hr
        obtain ⟨u, hu, ⟨t, ht⟩, rfl⟩ := (skipCustom_eq_inl_iff hv).1 hr
        obtain ⟨v, hv', hp, rfl, hhead⟩ := ih _ (hn ▸ hlt) (hv.advance ⟨t, ht⟩) h rfl
        rw [Cursor.ahead_advance_of_append ht.symm] at hp
        refine ⟨u ++ v, .cons hu hv', ?_, ?_, hhead⟩
        · rw [← ht]
          exact (List.prefix_append_right_inj u).2 hp
        · rw [Cursor.advance_advance, List.length_append]
      · rename_i m hr
        cases h
        obtain ⟨hhead, rfl⟩ := skipCustom_eq_inr_iff.1 hr
        exact ⟨[], .nil, List.nil_prefix, rfl, hhead⟩
      · cases h
  · rintro ⟨w, hw, hp, rfl, hhead⟩
    unfold skipCustoms
    induction hw generalizing c with
    | nil => exact iterate_of_inr _ (skipCustom_eq_inr_iff.2 ⟨hhead, rfl⟩)
    | @cons u v hu hv' ih =>
      obtain ⟨t, ht⟩ := hp
      rw [List.append_assoc] at ht
      have hpu : u <+: c.ahead := ⟨v ++ t, ht⟩
      have ha := Cursor.ahead_advance_of_append ht.symm
      rw [iterate_of_inl _ ((skipCustom_eq_inl_iff hv).2 ⟨u, hu, hpu, rfl⟩)]
      rw [List.length_append, ← Cursor.advance_advance] at hhead ⊢
      exact ih (hv.advance hpu) (ha ▸ List.prefix_append v t) hhead

/-! ## Readings to the end of the input -/

/-- At a nesting of `depth` the reading succeeds exactly when all that lies ahead is a word of the
    production, and gives its value. -/
def Finishes {β : Type} (depth : Nat) (x : Decode β) (G : Production β) : Prop :=
  ∀ c b, c.Valid → c.depth = depth → ((∃ c', x c = .ok b c') ↔ G c.ahead b)

/-- No word of the production begins with a byte up to `id`. -/
def Above {β : Type} (id : UInt8) (G : Production β) : Prop :=
  ∀ w b, G w b → ∀ x ∈ w.head?, id < x

variable {α β : Type} {depth : Nat} {x : Decode α} {f : α → Decode β} {G : Production α}
  {H : α → Production β}

theorem Finishes.congr {x : Decode β} {G G' : Production β} (hx : Finishes depth x G)
    (h : ∀ w b, G w b ↔ G' w b) : Finishes depth x G' := by
  intro c b hv hd
  rw [hx c b hv hd]
  exact h _ b

/-- What is read before the rest of the chain. -/
theorem Finishes.bind (hx : Reads depth x G) (hf : ∀ a, Finishes depth (f a) (H a)) :
    Finishes depth (x >>= f) (andThen G H) := by
  intro c b hv hd
  constructor
  · rintro ⟨c', h⟩
    obtain ⟨a, m, hxm, hfm⟩ := bind_eq_ok.1 h
    obtain ⟨u, hG, ⟨v, hu⟩, rfl⟩ := (hx c a m hv hd).1 hxm
    have hH := (hf a _ b (hv.advance ⟨v, hu⟩) hd).1 ⟨c', hfm⟩
    rw [Cursor.ahead_advance_of_append hu.symm] at hH
    exact ⟨u, v, a, hu.symm, hG, hH⟩
  · rintro ⟨u, v, a, hahead, hG, hH⟩
    have hu : u <+: c.ahead := ⟨v, hahead.symm⟩
    rw [← Cursor.ahead_advance_of_append hahead] at hH
    obtain ⟨c', hfm⟩ := (hf a _ b (hv.advance hu) hd).2 hH
    exact ⟨c', bind_eq_ok.2 ⟨a, _, (hx c a _ hv hd).2 ⟨u, hG, hu, rfl⟩, hfm⟩⟩

/-- Custom sections before the rest of the chain, which does not begin like one. -/
theorem Finishes.customs {f : Unit → Decode β} {H : Production β} (hf : Finishes depth (f ()) H)
    (habove : Above customId H) :
    Finishes depth (skipCustoms >>= f)
      (fun w b => ∃ u v, w = u ++ v ∧ CustomsForm u ∧ H v b) := by
  intro c b hv hd
  constructor
  · rintro ⟨c', h⟩
    obtain ⟨_, m, hskip, hfm⟩ := bind_eq_ok.1 h
    obtain ⟨u, hu, ⟨v, hp⟩, rfl, -⟩ := (skipCustoms_eq_ok_iff hv).1 hskip
    have hH := (hf _ b (hv.advance ⟨v, hp⟩) hd).1 ⟨c', hfm⟩
    rw [Cursor.ahead_advance_of_append hp.symm] at hH
    exact ⟨u, v, hp.symm, hu, hH⟩
  · rintro ⟨u, v, hahead, hu, hH⟩
    have hp : u <+: c.ahead := ⟨v, hahead.symm⟩
    have ha := Cursor.ahead_advance_of_append hahead
    have hhead : v.head? ≠ some customId := by
      intro hhead
      exact UInt8.lt_irrefl _ (habove v b hH customId hhead)
    rw [← ha] at hH hhead
    obtain ⟨c', hfm⟩ := (hf _ b (hv.advance hp) hd).2 hH
    exact ⟨c', bind_eq_ok.2 ⟨(), _, (skipCustoms_eq_ok_iff hv).2 ⟨u, hu, hp, rfl, hhead⟩, hfm⟩⟩

/-- A section before the rest of the chain, which begins neither like it nor like a custom
    section. -/
theorem Finishes.section {id : UInt8} {absent : α} {contents : Decode α}
    (hc : Reads depth contents G) (hf : ∀ a, Finishes depth (f a) (H a))
    (habove : ∀ a, Above id (H a)) :
    Finishes depth (readSection id absent contents >>= f)
      (andThen (SectionForm id absent G) H) := by
  have habove₀ : ∀ a, Above customId (H a) := fun a w b hH x hx =>
    UInt8.lt_of_le_of_lt UInt8.zero_le (habove a w b hH x hx)
  -- What is read when the section is there: its id, its contents, then the rest behind any customs.
  have hchain := Finishes.bind Reads.byte fun _ => Finishes.bind (Reads.sized hc) fun a =>
    Finishes.customs (f := fun _ => f a) (hf a) (habove₀ a)
  intro c b hv hd
  have hread : (readSection id absent contents >>= f) c =
      if c.ahead.head? = some id then
        (readByte >>= fun _ => Binary.sized contents >>= fun a => skipCustoms >>= fun _ => f a) c
      else f absent c := by
    unfold readSection
    rw [bind_assoc, peek_bind]
    split
    · simp only [bind_assoc, pure_bind]
    · rw [pure_bind]
  simp only [hread]
  split
  · rename_i hhead
    rw [hchain c b hv hd]
    constructor
    · rintro ⟨_, _, id', hahead, rfl, s, _, value, rfl, hs, u, v, rfl, hu, hH⟩
      rw [hahead] at hhead
      cases hhead
      exact ⟨id :: (s ++ u), v, value, by simp [hahead], .present hs hu, hH⟩
    · rintro ⟨u, v, a, hahead, hs, hH⟩
      rw [hahead] at hhead ⊢
      cases hs with
      -- The rest would begin with the id of the section, and it begins with a larger one.
      | absent => exact absurd (habove _ v b hH id hhead) (UInt8.lt_irrefl id)
      | @present s u _ hs hu =>
        exact ⟨[id], s ++ (u ++ v), id, by simp, rfl, s, u ++ v, a, rfl, hs, u, v, rfl, hu, hH⟩
  · rename_i hhead
    rw [hf absent c b hv hd]
    constructor
    · exact fun hH => ⟨[], c.ahead, absent, rfl, .absent, hH⟩
    · rintro ⟨u, v, a, hahead, hs, hH⟩
      cases hs with
      | absent =>
        rw [hahead]
        exact hH
      | present => exact absurd (by rw [hahead]; rfl) hhead

/-- A section that may be missing, and what comes behind it, begin with no number up to `j`. -/
theorem Above.section {id j : UInt8} {absent : α} (habove : ∀ a, Above id (H a)) (hj : j < id) :
    Above j (andThen (SectionForm id absent G) H) := by
  rintro w b ⟨u, v, a, rfl, hs, hH⟩ x hx
  cases hs with
  | absent => exact UInt8.lt_trans hj (habove _ v b hH x hx)
  | present =>
    cases hx
    exact hj

/-- The rest of the chain, behind the section with the number `id`. -/
def Follows {β : Type} (id : UInt8) (x : Decode β) (G : Production β) : Prop :=
  Finishes 0 x G ∧ Above id G

/-- A link of the chain. -/
theorem Follows.section {j : UInt8} {contents : Decode α} (id : UInt8) (absent : α)
    (hc : Reads 0 contents G) (hj : j < id) (h : ∀ a, Follows id (f a) (H a)) :
    Follows j (readSection id absent contents >>= f) (andThen (SectionForm id absent G) H) :=
  ⟨Finishes.section hc (fun a => (h a).1) fun a => (h a).2, Above.section (fun a => (h a).2) hj⟩

/-- Custom sections before the first link. -/
theorem Follows.customs {x : Decode β} {H : Production β} (h : Follows customId x H) :
    Finishes 0 (skipCustoms >>= fun _ => x)
      (fun w b => ∃ u v, w = u ++ v ∧ CustomsForm u ∧ H v b) := Finishes.customs h.1 h.2

/-! ## The preamble and the end -/

/-- Four bytes that spell 1. -/
theorem littleEndian_eq_one_iff {bytes : List UInt8} (h : bytes.length = 4) :
    UInt32.ofNat (littleEndian bytes) = version ↔ bytes = [0x01, 0x00, 0x00, 0x00] := by
  match bytes, h with
  | [a, b, c, d], _ =>
    have ha := a.toNat_lt
    have hb := b.toNat_lt
    have hc := c.toNat_lt
    have hd := d.toNat_lt
    constructor
    · intro h
      have h := congrArg UInt32.toNat h
      rw [UInt32.toNat_ofNat'] at h
      simp only [littleEndian, version, UInt32.reduceToNat] at h
      simp only [List.cons.injEq, ← UInt8.toNat_inj, UInt8.reduceToNat, and_true]
      omega
    · intro h
      cases h
      rfl

theorem Reads.preamble (depth : Nat) : Reads depth readPreamble (fun w _ => w = preamble) := by
  have hversion : ∀ found : UInt32, Reads depth
      (if found ≠ version then Binary.failAt 4 (.unsupportedVersion found) else Pure.pure ())
      (fun w _ => found = version ∧ w = []) := fun found =>
    (Reads.ite (fun _ => Reads.failAt 4 _) fun _ => Reads.pure ()).congr fun w _ => by
      simp [noWord, emptyWord]
  refine ((Reads.bytes 4).bind fun found => Reads.guard (p := found ≠ magic) 0 .malformedMagic
    ((Reads.bytes 4).bind fun bytes => hversion (UInt32.ofNat (littleEndian bytes)))).congr
      fun w a => ?_
  constructor
  · rintro ⟨u, _, found, rfl, ⟨rfl, -⟩, hmagic, v, _, bytes, rfl, ⟨rfl, hlen⟩, hversion, rfl⟩
    rw [not_not.1 hmagic, (littleEndian_eq_one_iff hlen).1 hversion]
    rfl
  · rintro rfl
    refine ⟨magic, _, magic, rfl, ⟨rfl, rfl⟩, not_not.2 rfl, _, [], [0x01, 0x00, 0x00, 0x00],
      rfl, ⟨rfl, rfl⟩, ?_, rfl⟩
    exact (littleEndian_eq_one_iff rfl).2 rfl

/-- The end of the chain: nothing is left over and a condition does not hold. -/
theorem Follows.end {p : Prop} [Decidable p] (id : UInt8) (m : β) (cause cause' : Cause) :
    Follows id (do
      unless ← atEnd do Binary.fail cause
      if p then Binary.fail cause'
      return m) (fun w b => w = [] ∧ ¬p ∧ b = m) := by
  refine ⟨?_, ?_⟩
  · intro c b hv hd
    have hempty : c.ahead = [] ↔ c.input.size ≤ c.pos := by
      rw [← List.length_eq_zero_iff, Cursor.length_ahead]
      omega
    show _ ↔ c.ahead = [] ∧ ¬p ∧ b = m
    rw [hempty]
    constructor
    · rintro ⟨c', h⟩
      obtain ⟨_, _, ⟨⟩, h⟩ := bind_eq_ok.1 h
      split at h
      · rename_i hend
        split at h
        · cases h
        · rename_i hp
          cases h
          exact ⟨of_decide_eq_true hend, hp, rfl⟩
      · cases h
    · rintro ⟨hend, hp, rfl⟩
      refine ⟨c, bind_eq_ok.2 ⟨_, _, rfl, ?_⟩⟩
      rw [decide_eq_true hend, if_pos rfl, if_neg hp]
      rfl
  · rintro w b ⟨rfl, -⟩ x hx
    cases hx

/-! ## Modules -/

/-- The start section says where a function is. -/
theorem Reads.start : Reads depth (some <$> readU32) StartForm :=
  (Reads.u32.map some).congr fun w start => by
    unfold StartForm
    simp only [and_comm]

theorem Finishes.module : Finishes 0 readModule ModuleForm := by
  have hchain := Finishes.bind (Reads.preamble 0) fun _ => Follows.customs (
    Follows.section 1 [] (Reads.vec Reads.funcType) (by decide) fun types =>
    Follows.section 2 [] (Reads.vec Reads.import) (by decide) fun imports =>
    Follows.section 3 [] (Reads.vec Reads.u32) (by decide) fun funcTypes =>
    Follows.section 4 [] (Reads.vec Reads.tableType) (by decide) fun tables =>
    Follows.section 5 [] (Reads.vec Reads.limits) (by decide) fun memories =>
    Follows.section 6 [] (Reads.vec Reads.global) (by decide) fun globals =>
    Follows.section 7 [] (Reads.vec Reads.export) (by decide) fun exports =>
    Follows.section 8 none Reads.start (by decide) fun start =>
    Follows.section 9 [] (Reads.vec Reads.elem) (by decide) fun elems =>
    Follows.section 10 [] (Reads.vec Reads.code) (by decide) fun codes =>
    Follows.section 11 [] (Reads.vec Reads.data) (by decide) fun data =>
    Follows.end (p := funcTypes.length ≠ codes.length) 11
      (Wasm.Module.mk types imports (zipFuncs funcTypes codes) tables memories globals exports start
        elems data) .junkAfterSections .lengthsDiffer)
  refine hchain.congr fun w m => ?_
  constructor
  · rintro ⟨_, _, _, rfl, rfl, c, _, rfl, hc, s₁, _, types, rfl, h₁, s₂, _, imports, rfl, h₂, s₃, _,
      funcTypes, rfl, h₃, s₄, _, tables, rfl, h₄, s₅, _, memories, rfl, h₅, s₆, _, globals, rfl, h₆,
      s₇, _, exports, rfl, h₇, s₈, _, start, rfl, h₈, s₉, _, elems, rfl, h₉, s₁₀, _, codes, rfl,
      h₁₀, s₁₁, _, data, rfl, h₁₁, rfl, hlen, rfl⟩
    rw [List.append_nil]
    exact .mk hc h₁ h₂ h₃ h₄ h₅ h₆ h₇ h₈ h₉ h₁₀ h₁₁ (not_not.1 hlen)
  · rintro ⟨hc, h₁, h₂, h₃, h₄, h₅, h₆, h₇, h₈, h₉, h₁₀, h₁₁, hlen⟩
    exact ⟨_, _, (), rfl, rfl, _, _, rfl, hc, _, _, _, rfl, h₁, _, _, _, rfl, h₂, _, _, _, rfl, h₃,
      _, _, _, rfl, h₄, _, _, _, rfl, h₅, _, _, _, rfl, h₆, _, _, _, rfl, h₇, _, _, _, rfl, h₈, _,
      _, _, rfl, h₉, _, _, _, rfl, h₁₀, _, [], _, (List.append_nil _).symm, h₁₁, rfl,
      not_not.2 hlen, rfl⟩

/-- Decoding accepts exactly the modules of the grammar, and gives the module that is spelled. -/
theorem decode_eq_ok_iff (bytes : Array UInt8) (m : Module) :
    decode bytes = .ok m ↔ ModuleForm bytes.toList m := by
  have hv : Cursor.Valid { input := bytes } := Nat.zero_le _
  have hread := Finishes.module { input := bytes } m hv rfl
  have hahead : Cursor.ahead { input := bytes } = bytes.toList := List.drop_zero
  rw [hahead] at hread
  rw [← hread]
  unfold decode
  constructor
  · intro h
    split at h
    · rename_i c' hr
      cases h
      exact ⟨c', hr⟩
    · cases h
  · rintro ⟨c', hr⟩
    rw [hr]

end WasmPack.Binary
