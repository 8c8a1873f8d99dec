/-
  WasmPack.Proofs.Closed.Mentions

  What commands mention: the sequences and tags that they call, and registers;
  and what the text of a command mentions.  A text is put together from plain
  pieces and registers, so it mentions no constant but those of the command and
  the least number, which takes the place of a distance that has no opposite.
-/
import WasmPack.Proofs.Command.Characters
import WasmPack.Proofs.State.Frame

namespace WasmPack

/-! ## Commands -/

/-- The symbols that a command calls. -/
def Command.callees : Command → List Symbol
  | .call symbol => [symbol]
  | .execute _ run => run.callees
  | _ => []

/-- The tags that a command calls. -/
def Command.calledTags : Command → List Tag
  | .callTag tag => [tag]
  | .execute _ run => run.calledTags
  | _ => []

/-- The registers that a condition compares. -/
def Condition.registers : Condition → List Register
  | .isIn r _ => [r]
  | .compare lhs _ rhs => [lhs, rhs]

/-- The register of a target. -/
def StoreTarget.registers : StoreTarget → List Register
  | .score r => [r]
  | .storage _ _ => []

/-- The registers that a modifier mentions. -/
def Modifier.registers : Modifier → List Register
  | .onlyIf condition => condition.registers
  | .exceptIf condition => condition.registers
  | .store _ target => target.registers

/-- The registers that a command mentions, to read or to write them. -/
def Command.registers : Command → List Register
  | .setScore r _ => [r]
  | .addScore r _ => [r]
  | .operation target _ source => [target, source]
  | .getScore r => [r]
  | .test ms => ms.flatMap Modifier.registers
  | .execute ms run => ms.flatMap Modifier.registers ++ run.registers
  | _ => []

/-- The values that a command writes out. -/
def Command.values : Command → List Nbt
  | .append _ value => [value]
  | .setData _ value => [value]
  | .execute _ run => run.values
  | _ => []

section Guarded

variable (c : Command) (g : Modifier)

@[simp] theorem Command.callees_guarded : (c.guarded g).callees = c.callees := by
  cases c <;> rfl

@[simp] theorem Command.calledTags_guarded : (c.guarded g).calledTags = c.calledTags := by
  cases c <;> rfl

@[simp] theorem Command.values_guarded : (c.guarded g).values = c.values := by
  cases c <;> rfl

@[simp] theorem Command.registers_guarded :
    (c.guarded g).registers = g.registers ++ c.registers := by
  cases c <;> simp [guarded, registers]

end Guarded

/-! ## Texts -/

/-- The text mentions the register of a constant. -/
def Mentions (text : String) (n : Int32) : Prop :=
  (Register.const n).render.toList <:+: text.toList

/-- The text has no sign of a register. -/
def PlainText (text : String) : Prop := '#' ∉ text.toList

instance (text : String) : Decidable (PlainText text) :=
  inferInstanceAs (Decidable ('#' ∉ text.toList))

/-- The character is not the sign of a register. -/
def isPlainChar (c : Char) : Bool := c ≠ '#'

theorem lenient_isPlainChar : Lenient isPlainChar := fun _ h => (Bool.and_eq_true_iff.1 h).2

theorem plainText_iff {text : String} : PlainText text ↔ Spelled isPlainChar text := by
  simp only [PlainText, spelled_iff, isPlainChar, decide_eq_true_eq]
  exact ⟨fun h c hc heq => h (heq ▸ hc), fun h hc => h _ hc rfl⟩

theorem PlainText.append {s t : String} (hs : PlainText s) (ht : PlainText t) :
    PlainText (s ++ t) := plainText_iff.2 ((plainText_iff.1 hs).append (plainText_iff.1 ht))

theorem toList_render_const (n : Int32) : (Register.const n).render.toList =
    '#' :: ((toString n.toInt).toList ++ ' ' :: objective.toList) := by
  simp [Register.render, Register.name, String.toList_append]

/-- In front of texts with certain constants only, the text adds no others. -/
def Adds (S : Int32 → Prop) (text : String) : Prop :=
  ∀ rest : String, (∀ n, Mentions rest n → S n) → ∀ n, Mentions (text ++ rest) n → S n

namespace Adds

variable {S : Int32 → Prop} {s t : String}

theorem append (hs : Adds S s) (ht : Adds S t) : Adds S (s ++ t) := by
  intro rest hrest n h
  rw [String.append_assoc] at h
  exact hs _ (ht rest hrest) n h

/-- Alone, it has those constants only. -/
theorem mentions (h : Adds S t) : ∀ n, Mentions t n → S n := by
  intro n hn
  refine h "" (fun n hn => ?_) n (by rwa [String.append_empty])
  have hlen := hn.length_le
  rw [toList_render_const] at hlen
  exact absurd hlen (by simp)

/-- No register begins in plain characters. -/
theorem infix_of_plain {n : Int32} {cs rest : List Char} (hcs : '#' ∉ cs)
    (h : (Register.const n).render.toList <:+: cs ++ rest) :
    (Register.const n).render.toList <:+: rest := by
  induction cs with
  | nil => exact h
  | cons c cs ih =>
    rw [List.mem_cons, not_or] at hcs
    rw [List.cons_append, List.infix_cons_iff] at h
    obtain h | h := h
    · rw [toList_render_const, List.cons_prefix_cons] at h
      exact absurd h.1 hcs.1
    · exact ih hcs.2 h

theorem of_plain (h : PlainText t) : Adds S t := by
  intro rest hrest n hn
  refine hrest n (infix_of_plain h ?_)
  rwa [Mentions, String.toList_append] at hn

end Adds

/-! ## Numbers -/

/-- The text of an integer begins with a digit or a sign, and goes on with digits. -/
theorem mem_toString_int {n : Int} {c : Char} (h : c ∈ (toString n).toList) :
    c = '-' ∨ c.isDigit = true := by
  cases n with
  | ofNat n => exact .inr (isDigit_of_mem_toString (n := n) h)
  | negSucc n =>
    have h : c ∈ ("-" ++ toString (n + 1)).toList := h
    rw [String.toList_append] at h
    obtain h | h := List.mem_append.1 h
    · exact .inl (List.mem_singleton.1 h)
    · exact .inr (isDigit_of_mem_toString h)

theorem toString_int_inj {m n : Int} (h : toString m = toString n) : m = n := by
  have hsign : ∀ k : Nat, ∀ l : Nat, (toString k : String) ≠ "-" ++ toString l := by
    intro k l heq
    have hmem : '-' ∈ (toString k : String).toList := by
      rw [heq, String.toList_append]
      exact List.mem_append_left _ (List.mem_singleton.2 rfl)
    exact absurd (isDigit_of_mem_toString hmem) (by decide)
  cases m with
  | ofNat k =>
    cases n with
    | ofNat l => exact congrArg Int.ofNat (toString_nat_inj.1 h)
    | negSucc l => exact absurd h (hsign k (l + 1))
  | negSucc k =>
    cases n with
    | ofNat l => exact absurd h.symm (hsign l (k + 1))
    | negSucc l =>
      have h : "-" ++ toString (k + 1) = "-" ++ toString (l + 1) := h
      have heq := congrArg String.toList h
      rw [String.toList_append, String.toList_append, List.append_cancel_left_eq,
        String.toList_inj, toString_nat_inj] at heq
      rw [Nat.succ.inj heq]

theorem plainText_int (n : Int) : PlainText (toString n) :=
  plainText_iff.2 (.int lenient_isPlainChar n)

theorem plainText_nat (n : Nat) : PlainText (toString n) :=
  plainText_iff.2 (.nat lenient_isPlainChar n)

theorem not_mem_toString_int {n : Int} {c : Char} (hsign : c ≠ '-') (hdigit : c.isDigit = false) :
    c ∉ (toString n).toList := fun h =>
  (mem_toString_int h).elim hsign fun hc => absurd hc (by rw [hdigit]; decide)

/-- A register that is not a constant has a name that is not a number. -/
theorem Register.name_cases (r : Register) : (∃ n, r = .const n) ∨
    r.name.toList = '#' :: r.name.toList.tail ∧ '#' ∉ r.name.toList.tail ∧
      ' ' ∉ r.name.toList.tail ∧ ∃ c ∈ r.name.toList.tail, c ≠ '-' ∧ c.isDigit = false := by
  have hletter : ∀ {cs : List Char}, (cs.any fun c => c != '-' && !c.isDigit) = true →
      ∃ c ∈ cs, c ≠ '-' ∧ c.isDigit = false := fun h => by simpa using h
  cases r with
  | const n => exact .inl ⟨n, rfl⟩
  | _ => exact .inr ⟨by decide, by decide, by decide, hletter (by decide)⟩

/-- Behind the sign of a register stands a name without signs and blanks, which is that of a number
    only for a constant. -/
theorem Register.exists_name (r : Register) : ∃ name : List Char, r.name.toList = '#' :: name ∧
    '#' ∉ name ∧ ' ' ∉ name ∧ ∀ n : Int32, (toString n.toInt).toList = name → r = .const n := by
  obtain ⟨m, rfl⟩ | ⟨hname, hplain, hblank, c, hc, hsign, hdigit⟩ := r.name_cases
  · refine ⟨(toString m.toInt).toList, by simp [Register.name], plainText_int _,
      not_mem_toString_int (by decide) (by decide), fun n hn => ?_⟩
    rw [Int32.toInt_inj.1 (toString_int_inj (String.toList_inj.1 hn))]
  · refine ⟨_, hname, hplain, hblank, fun n hn => ?_⟩
    rw [← hn] at hc
    exact absurd hc (not_mem_toString_int hsign hdigit)

/-- The sign in front of a plain text that is not a number. -/
theorem Adds.sign {S : Int32 → Prop} {t : String} {c : Char} {cs : List Char} (ht : PlainText t)
    (hcs : t.toList = c :: cs) (hblank : c ≠ ' ') (hsign : c ≠ '-') (hdigit : c.isDigit = false) :
    Adds S ("#" ++ t) := by
  intro rest hrest n hn
  have htext : ("#" ++ t ++ rest).toList = '#' :: (t.toList ++ rest.toList) := by
    simp [String.toList_append]
  rw [Mentions, htext, List.infix_cons_iff] at hn
  obtain hn | hn := hn
  · rw [toList_render_const, List.cons_prefix_cons, hcs, List.cons_append] at hn
    have hnumber := not_mem_toString_int (n := n.toInt) hsign hdigit
    cases hdigits : (toString n.toInt).toList with
    | nil =>
      rw [hdigits, List.nil_append, List.cons_prefix_cons] at hn
      exact absurd hn.2.1.symm hblank
    | cons d ds =>
      rw [hdigits, List.cons_append, List.cons_prefix_cons] at hn
      rw [hdigits, hn.2.1] at hnumber
      exact absurd List.mem_cons_self hnumber
  · exact hrest n (infix_of_plain ht hn)

/-- A register adds itself. -/
theorem Adds.register {S : Int32 → Prop} {r : Register} (h : ∀ n, r = .const n → S n) :
    Adds S r.render := by
  obtain ⟨name, hname, hplain, hblank, hnumber⟩ := r.exists_name
  intro rest hrest n hn
  have htext : (r.render ++ rest).toList =
      '#' :: (name ++ ' ' :: (objective.toList ++ rest.toList)) := by
    simp [Register.render, hname, String.toList_append]
  rw [Mentions, htext, List.infix_cons_iff] at hn
  obtain ⟨tail, htail⟩ | hn := hn
  · rw [toList_render_const, List.cons_append, List.cons.injEq, List.append_assoc,
      List.cons_append, append_separator_inj (not_mem_toString_int (by decide) (by decide)) hblank]
      at htail
    exact h n (hnumber n htail.2.1)
  · have hn := Adds.infix_of_plain hplain hn
    have hplain' : '#' ∉ ' ' :: objective.toList := by decide
    exact hrest n (Adds.infix_of_plain hplain' hn)

/-! ## The text of a command -/

/-- The keys of a path are plain. -/
def Path.isPlain (p : Path) : Bool :=
  p.segments.all fun
    | .key k => '#' ∉ k.toList
    | .index _ => true

theorem plainText_path {p : Path} {ns : String} (hns : PlainText ns) (h : p.isPlain = true) :
    PlainText (p.render ns) := by
  refine plainText_iff.2 (.path lenient_isPlainChar (plainText_iff.1 hns) fun k hk => ?_)
  obtain ⟨segment, hsegment, hk⟩ := List.mem_filterMap.1 hk
  have hplain := List.all_eq_true.1 h segment hsegment
  cases segment with
  | key k' =>
    cases hk
    exact plainText_iff.1 (of_decide_eq_true hplain)
  | index i => cases hk

mutual

/-- The texts and keys in a value are plain. -/
def Nbt.isPlain : Nbt → Bool
  | .text s => '#' ∉ s.toList
  | .list ⟨items⟩ => areItemsPlain items
  | .compound fields => areFieldsPlain fields
  | _ => true

/-- The same for the items of a list. -/
def Nbt.areItemsPlain : List Nbt → Bool
  | [] => true
  | item :: rest => item.isPlain && areItemsPlain rest

/-- The same for the fields of a compound. -/
def Nbt.areFieldsPlain : List (String × Nbt) → Bool
  | [] => true
  | (key, value) :: rest => decide ('#' ∉ key.toList) && value.isPlain && areFieldsPlain rest

end

mutual

theorem spelled_texts : ∀ v : Nbt, v.isPlain = true → ∀ t ∈ v.texts, Spelled isPlainChar t
  | .int _, _ => fun _ h => nomatch h
  | .byte _, _ => fun _ h => nomatch h
  | .bytes _, _ => fun _ h => nomatch h
  | .text _, h => List.forall_mem_singleton.2 (plainText_iff.1 (of_decide_eq_true h))
  | .list ⟨items⟩, h => spelled_itemTexts items h
  | .compound fields, h => spelled_fieldTexts fields h

theorem spelled_itemTexts : ∀ items : List Nbt, Nbt.areItemsPlain items = true →
    ∀ t ∈ Nbt.itemTexts items, Spelled isPlainChar t
  | [], _ => fun _ h => nomatch h
  | item :: rest, h => by
    obtain ⟨hitem, hrest⟩ := Bool.and_eq_true_iff.1 h
    exact List.forall_mem_append.2 ⟨spelled_texts item hitem, spelled_itemTexts rest hrest⟩

theorem spelled_fieldTexts : ∀ fields : List (String × Nbt), Nbt.areFieldsPlain fields = true →
    ∀ t ∈ Nbt.fieldTexts fields, Spelled isPlainChar t
  | [], _ => fun _ h => nomatch h
  | (key, value) :: rest, h => by
    obtain ⟨h, hrest⟩ := Bool.and_eq_true_iff.1 h
    obtain ⟨hkey, hvalue⟩ := Bool.and_eq_true_iff.1 h
    exact List.forall_mem_cons.2 ⟨plainText_iff.1 (of_decide_eq_true hkey),
      List.forall_mem_append.2 ⟨spelled_texts value hvalue, spelled_fieldTexts rest hrest⟩⟩

end

theorem plainText_value (v : Nbt) (h : v.isPlain = true) : PlainText v.render :=
  plainText_iff.2 (.value lenient_isPlainChar v (spelled_texts v h))

theorem plainText_range (range : Range) : PlainText range.render :=
  plainText_iff.2 (.range lenient_isPlainChar range)

/-- The name of a symbol is plain where the namespace and the parts given by the module are. -/
theorem plainText_qualifiedName {ns : String} (hns : PlainText ns) {f : Symbol}
    (h : ∀ t ∈ f.parts, PlainText t) : PlainText (f.qualifiedName ns) :=
  plainText_iff.2 (.qualifiedName lenient_isPlainChar (plainText_iff.1 hns) fun t ht =>
    plainText_iff.1 (h t ht))

section Render

variable {S : Int32 → Prop} {ns : String}

/-- A command whose registers have certain constants only, and whose other parts are plain. -/
structure Command.IsLegible (S : Int32 → Prop) (ns : String) (c : Command) : Prop where
  registers : ∀ n, .const n ∈ c.registers → S n
  paths : ∀ p ∈ c.paths, p.isPlain = true
  values : ∀ v ∈ c.values, v.isPlain = true
  callees : ∀ f ∈ c.callees, PlainText (f.qualifiedName ns)

theorem Adds.registerOf {rs : List Register} {r : Register} (h : ∀ n, .const n ∈ rs → S n)
    (hr : r ∈ rs) : Adds S r.render := .register fun n hn => h n (hn ▸ hr)

/-- A text with a plain one behind it. -/
theorem Adds.plain {s t : String} (hs : Adds S s) (ht : PlainText t) : Adds S (s ++ t) :=
  hs.append (.of_plain ht)

/-- A plain text with another one behind it. -/
theorem Adds.after {s t : String} (hs : PlainText s) (ht : Adds S t) : Adds S (s ++ t) :=
  (Adds.of_plain hs).append ht

theorem adds_condition {condition : Condition} (h : ∀ n, .const n ∈ condition.registers → S n) :
    Adds S condition.render := by
  cases condition with
  | isIn r range =>
    have hr := Adds.registerOf h List.mem_cons_self
    exact ((Adds.after (by decide) hr).plain (by decide)).plain (plainText_range range)
  | compare lhs op rhs =>
    have hlhs := Adds.registerOf h List.mem_cons_self
    have hrhs := Adds.registerOf h (List.mem_cons_of_mem _ List.mem_cons_self)
    have hsign : PlainText op.sign := by cases op <;> decide
    exact ((((Adds.after (by decide) hlhs).plain (by decide)).plain hsign).plain
      (by decide)).append hrhs

theorem adds_modifier {m : Modifier} (hns : PlainText ns)
    (h : ∀ n, .const n ∈ m.registers → S n) (hpaths : ∀ p ∈ m.paths, p.isPlain = true) :
    Adds S (m.render ns) := by
  cases m with
  | onlyIf condition => exact .after (by decide) (adds_condition h)
  | exceptIf condition => exact .after (by decide) (adds_condition h)
  | store kind target =>
    have hkind : PlainText kind.name := by cases kind <;> decide
    have htarget : Adds S (target.render ns) := by
      cases target with
      | score r => exact .after (by decide) (.registerOf h List.mem_cons_self)
      | storage path tag =>
        have hpath := plainText_path hns (hpaths path List.mem_cons_self)
        have htag : PlainText tag.name := by cases tag <;> decide
        exact .of_plain (((((by decide : PlainText _).append hpath).append (by decide)).append
          htag).append (by decide))
    exact ((Adds.after (by decide) (.of_plain hkind)).plain (by decide)).append htarget

theorem adds_modifiers {ms : List Modifier} (hns : PlainText ns)
    (h : ∀ n, .const n ∈ ms.flatMap Modifier.registers → S n)
    (hpaths : ∀ p ∈ ms.flatMap Modifier.paths, p.isPlain = true) :
    Adds S (renderModifiers ns ms) := by
  induction ms with
  | nil => exact .of_plain (by decide : PlainText "")
  | cons m ms ih =>
    simp only [List.flatMap_cons, List.mem_append] at h hpaths
    have hm : Adds S (m.render ns) := adds_modifier hns (fun n hn => h n (.inl hn))
      fun p hp => hpaths p (.inl hp)
    exact (Adds.after (by decide) hm).append
      (ih (fun n hn => h n (.inr hn)) fun p hp => hpaths p (.inr hp))

theorem adds_renderAdd {r : Register} {delta : Int32} (hmin : S Int32.minValue)
    (h : ∀ n, .const n ∈ [r] → S n) : Adds S (renderAdd r delta) := by
  have hr := Adds.registerOf h List.mem_cons_self
  unfold renderAdd
  split
  · -- The number without an opposite is added from its register.
    rename_i hdelta
    refine ((Adds.after (by decide) hr).plain (by decide)).append (.register fun n hn => ?_)
    rw [hdelta] at hn
    cases hn
    exact hmin
  split
  · exact ((Adds.after (by decide) hr).plain (by decide)).plain (plainText_int _)
  · exact ((Adds.after (by decide) hr).plain (by decide)).plain (plainText_int _)

/-- **The text of a legible command** mentions no constants but those of the command and the least
    number. -/
theorem adds_render {c : Command} (hns : PlainText ns) (hmin : S Int32.minValue)
    (h : c.IsLegible S ns) : Adds S (c.render ns) := by
  have hpath : ∀ {p}, p ∈ c.paths → PlainText (p.render ns) := fun hp =>
    plainText_path hns (h.paths _ hp)
  induction c with
  | setScore r v =>
    have hr := Adds.registerOf h.registers List.mem_cons_self
    exact ((Adds.after (by decide) hr).plain (by decide)).plain (plainText_int _)
  | addScore r v => exact adds_renderAdd hmin h.registers
  | operation target op source =>
    have htarget := Adds.registerOf h.registers List.mem_cons_self
    have hsource := Adds.registerOf h.registers (List.mem_cons_of_mem _ List.mem_cons_self)
    have hsign : PlainText op.sign := by cases op <;> decide
    exact ((((Adds.after (by decide) htarget).plain (by decide)).plain hsign).plain
      (by decide)).append hsource
  | getScore r => exact .after (by decide) (.registerOf h.registers List.mem_cons_self)
  | append path value =>
    exact .of_plain ((((by decide : PlainText _).append (hpath List.mem_cons_self)).append
      (by decide)).append (plainText_value _ (h.values _ List.mem_cons_self)))
  | appendFrom path source =>
    exact .of_plain ((((by decide : PlainText _).append (hpath List.mem_cons_self)).append
      (by decide)).append (hpath (List.mem_cons_of_mem _ List.mem_cons_self)))
  | setData path value =>
    exact .of_plain ((((by decide : PlainText _).append (hpath List.mem_cons_self)).append
      (by decide)).append (plainText_value _ (h.values _ List.mem_cons_self)))
  | setFrom path source =>
    exact .of_plain ((((by decide : PlainText _).append (hpath List.mem_cons_self)).append
      (by decide)).append (hpath (List.mem_cons_of_mem _ List.mem_cons_self)))
  | remove path => exact .of_plain ((by decide : PlainText _).append (hpath List.mem_cons_self))
  | getData path => exact .of_plain ((by decide : PlainText _).append (hpath List.mem_cons_self))
  | call symbol =>
    exact .of_plain ((by decide : PlainText _).append (h.callees _ List.mem_cons_self))
  | callTag tag =>
    have htag : PlainText tag.name ∧ tag.name.toList = 'm' :: tag.name.toList.tail := by
      cases tag <;> decide
    obtain ⟨hplain, hrest⟩ := htag
    -- The sign in front of a tag is the one of constants, but what follows it is no number.
    have htext : (Command.callTag tag).render ns = "function " ++ ("#" ++ tag.name) := by
      rw [← String.append_assoc]
      rfl
    rw [htext]
    exact .after (by decide) (.sign hplain hrest (by decide) (by decide) (by decide))
  | addObjective =>
    exact .of_plain (by decide : PlainText ("scoreboard objectives add " ++ objective ++ " dummy"))
  | test ms =>
    exact .after (by decide) (adds_modifiers hns h.registers h.paths)
  -- What is legible in the whole is legible in the modifiers and in what they guard.
  | execute ms run ih =>
    have hregisters := h.registers
    have hpaths := h.paths
    simp only [Command.registers, Command.paths, List.mem_append] at hregisters hpaths
    have hms : Adds S (renderModifiers ns ms) := adds_modifiers hns
      (fun n hn => hregisters n (.inl hn)) fun p hp => hpaths p (.inl hp)
    have hrun : run.IsLegible S ns := ⟨fun n hn => hregisters n (.inr hn),
      fun p hp => hpaths p (.inr hp), h.values, h.callees⟩
    exact ((Adds.after (by decide) hms).plain (by decide)).append
      (ih hrun fun hp => plainText_path hns (hrun.paths _ hp))

end Render

end WasmPack
