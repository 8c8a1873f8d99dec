/-
  WasmPack.Proofs.Command.Unambiguous

  A command is told from its text.  The words of a modifier end where those of the
  next one or of the command behind it begin, and the words of a command tell its
  form; what is left open is which of the symbols of one name is called, and how
  the least number was added.
-/
import WasmPack.Proofs.Closed.Known
import WasmPack.Proofs.Command.Pieces
import WasmPack.Proofs.Compile.Program

namespace WasmPack

open Text

variable {ns : String}

/-! ## Modifiers -/

section Modifiers

variable {x y : List String}

theorem condition_append_inj {c d : Condition} (h : c.words ++ x = d.words ++ y) :
    c = d ∧ x = y := by
  cases c with
  | isIn r range =>
    cases d with
    | isIn r' range' =>
      simpa [Condition.words, Register.words, Register.name_inj, Range.render_inj, and_assoc] using h
    | compare lhs op rhs => simp [Condition.words, Register.words, op.sign_ne.symm] at h
  | compare lhs op rhs =>
    cases d with
    | isIn r range => simp [Condition.words, Register.words, op.sign_ne] at h
    | compare lhs' op' rhs' =>
      simpa [Condition.words, Register.words, Register.name_inj, Compare.sign_inj, and_assoc]
        using h

theorem target_append_inj (hns : ns ≠ sharedNamespace) {t u : StoreTarget}
    (ht : ∀ path tag, t = .storage path tag → path.IsWorded)
    (hu : ∀ path tag, u = .storage path tag → path.IsWorded)
    (h : t.words ns ++ x = u.words ns ++ y) : t = u ∧ x = y := by
  cases t with
  | score r =>
    cases u with
    | score r' => simpa [StoreTarget.words, Register.words, Register.name_inj] using h
    | storage path tag => simp [StoreTarget.words, Register.words] at h
  | storage path tag =>
    cases u with
    | score r => simp [StoreTarget.words, Register.words] at h
    | storage path' tag' =>
      simp only [StoreTarget.words, Path.words, List.cons_append, List.nil_append,
        List.cons.injEq, true_and, NumericTag.name_inj] at h
      obtain ⟨hid, htext, rfl, rfl⟩ := h
      rw [Path.told hns (ht path tag rfl) (hu path' tag rfl) hid htext]
      exact ⟨rfl, rfl⟩

theorem modifier_append_inj (hns : ns ≠ sharedNamespace) {m m' : Modifier}
    (hm : ∀ p ∈ m.paths, p.IsWorded) (hm' : ∀ p ∈ m'.paths, p.IsWorded)
    (h : m.words ns ++ x = m'.words ns ++ y) : m = m' ∧ x = y := by
  have htarget : ∀ {kind : StoreKind} {t : StoreTarget},
      (∀ p ∈ (Modifier.store kind t).paths, p.IsWorded) →
      ∀ path tag, t = .storage path tag → path.IsWorded := by
    rintro kind t ht path tag rfl
    exact ht path List.mem_cons_self
  cases m with
  | onlyIf c =>
    cases m' with
    | onlyIf d =>
      obtain ⟨rfl, hxy⟩ := condition_append_inj (List.cons.inj h).2
      exact ⟨rfl, hxy⟩
    | _ => exact absurd (List.cons.inj h).1 (by decide)
  | exceptIf c =>
    cases m' with
    | exceptIf d =>
      obtain ⟨rfl, hxy⟩ := condition_append_inj (List.cons.inj h).2
      exact ⟨rfl, hxy⟩
    | _ => exact absurd (List.cons.inj h).1 (by decide)
  | store kind t =>
    cases m' with
    | store kind' t' =>
      obtain ⟨hkind, htail⟩ := List.cons.inj (List.cons.inj h).2
      obtain ⟨rfl, hxy⟩ := target_append_inj hns (htarget hm) (htarget hm') htail
      rw [StoreKind.name_inj.1 hkind]
      exact ⟨rfl, hxy⟩
    | _ => exact absurd (List.cons.inj h).1 (by decide)

/-- What no modifier begins with. -/
def IsBehind (x : List String) : Prop :=
  ∀ w ∈ x.head?, w ≠ "if" ∧ w ≠ "unless" ∧ w ≠ "store"

theorem isBehind_nil : IsBehind [] := fun _ h => nomatch h

theorem isBehind_run (rest : List String) : IsBehind ("run" :: rest) := by
  rintro w hw
  rw [← Option.some.inj hw]
  decide

theorem modifier_words_ne (m : Modifier) (hy : IsBehind y) : m.words ns ++ x ≠ y := by
  rintro rfl
  cases m with
  | onlyIf c => exact (hy "if" rfl).1 rfl
  | exceptIf c => exact (hy "unless" rfl).2.1 rfl
  | store kind t => exact (hy "store" rfl).2.2 rfl

/-- Modifiers end where a word stands that none of them begins with. -/
theorem modifiers_append_inj (hns : ns ≠ sharedNamespace) {ms ms' : List Modifier}
    (hms : ∀ p ∈ ms.flatMap Modifier.paths, p.IsWorded)
    (hms' : ∀ p ∈ ms'.flatMap Modifier.paths, p.IsWorded) (hx : IsBehind x) (hy : IsBehind y)
    (h : ms.flatMap (Modifier.words ns) ++ x = ms'.flatMap (Modifier.words ns) ++ y) :
    ms = ms' ∧ x = y := by
  induction ms generalizing ms' with
  | nil =>
    cases ms' with
    | nil => exact ⟨rfl, h⟩
    | cons m' ms' =>
      rw [List.flatMap_cons, List.append_assoc] at h
      exact absurd h.symm (modifier_words_ne m' hx)
  | cons m ms ih =>
    rw [List.flatMap_cons, List.forall_mem_append] at hms
    rw [List.flatMap_cons, List.append_assoc] at h
    cases ms' with
    | nil => exact absurd h (modifier_words_ne m hy)
    | cons m' ms' =>
      rw [List.flatMap_cons, List.forall_mem_append] at hms'
      rw [List.flatMap_cons, List.append_assoc] at h
      obtain ⟨rfl, htail⟩ := modifier_append_inj hns hms.1 hms'.1 h
      obtain ⟨rfl, hxy⟩ := ih hms.2 hms'.2 htail
      exact ⟨rfl, hxy⟩

end Modifiers

/-! ## Commands -/

/-- The namespace and the name in it pass the tests of imports. -/
def ExternalId.IsNamed (id : ExternalId) : Prop :=
  Compile.checkNamespace id.origin = .ok () ∧ Compile.checkName .imported id.member = .ok ()

/-- The parts of the symbol's name that a module gives pass the tests of names. -/
def Symbol.IsNamed : Symbol → Prop
  | exportFunc name => Compile.checkName .exported name = .ok ()
  | exportMemory name _ => Compile.checkName .exported name = .ok ()
  | exportGlobal name _ => Compile.checkName .exported name = .ok ()
  | importFunc id => id.IsNamed
  | importMemory id _ => id.IsNamed
  | importGlobal id _ => id.IsNamed
  | _ => True

theorem ExternalId.IsNamed.plainText {id : ExternalId} (h : id.IsNamed) :
    ∀ t ∈ [id.origin, id.member], PlainText t :=
  List.forall_mem_cons.2 ⟨Compile.plainText_of_checkNamespace h.1,
    List.forall_mem_singleton.2 (Compile.plainText_of_checkName h.2)⟩

theorem Symbol.IsNamed.plainText {f : Symbol} (h : f.IsNamed)
    (hns : Compile.checkNamespace ns = .ok ()) : PlainText (f.qualifiedName ns) := by
  refine plainText_qualifiedName (Compile.plainText_of_checkNamespace hns) ?_
  cases f with
  | exportFunc name => exact List.forall_mem_singleton.2 (Compile.plainText_of_checkName h)
  | exportMemory name op => exact List.forall_mem_singleton.2 (Compile.plainText_of_checkName h)
  | exportGlobal name op => exact List.forall_mem_singleton.2 (Compile.plainText_of_checkName h)
  | importFunc id => exact ExternalId.IsNamed.plainText h
  | importMemory id op => exact ExternalId.IsNamed.plainText h
  | importGlobal id op => exact ExternalId.IsNamed.plainText h
  | _ => exact fun _ ht => nomatch ht

/-- The keys of the command's paths and values are words, and the names that it calls passed the
    tests. -/
structure Command.IsWritten (c : Command) : Prop where
  paths : ∀ p ∈ c.paths, p.IsWorded
  values : ∀ v ∈ c.values, v.IsWorded
  callees : ∀ f ∈ c.callees, f.IsNamed

/-- Two commands that do the same under a namespace, up to the name by which a sequence is called
    and the way in which the least number is added. -/
inductive Command.Alike (ns : String) : Command → Command → Prop where
  | refl (c : Command) : Alike ns c c
  | call {f g : Symbol} (h : f.qualifiedName ns = g.qualifiedName ns) :
      Alike ns (.call f) (.call g)
  | addLeast (r : Register) :
      Alike ns (.addScore r Int32.minValue) (.operation r .add (.const Int32.minValue))
  | leastAdded (r : Register) :
      Alike ns (.operation r .add (.const Int32.minValue)) (.addScore r Int32.minValue)
  | execute (ms : List Modifier) {c d : Command} (h : Alike ns c d) :
      Alike ns (.execute ms c) (.execute ms d)

theorem renderAdd_least (r : Register) {delta : Int32} (h : delta = Int32.minValue) :
    renderAdd r delta = (Command.operation r .add (.const delta)).render ns := by
  have hsign : " += " = " " ++ ScoreOp.add.sign ++ " " := by decide
  have hrender : (Command.operation r .add (.const delta)).render ns =
      "scoreboard players operation " ++ r.render ++ " " ++ ScoreOp.add.sign ++ " " ++
        (Register.const delta).render := rfl
  rw [renderAdd, if_pos h, hrender, hsign]
  simp only [String.append_assoc]

theorem Command.Alike.render_eq {c d : Command} (h : c.Alike ns d) : c.render ns = d.render ns := by
  induction h with
  | refl c => rfl
  | call h => exact congrArg ("function " ++ ·) h
  | addLeast r => exact renderAdd_least r rfl
  | leastAdded r => exact (renderAdd_least r rfl).symm
  | execute ms h ih => exact congrArg ("execute" ++ renderModifiers ns ms ++ " run " ++ ·) ih

/-! ### Scores -/

theorem addVerb_cases (delta : Int32) : delta = Int32.minValue ∧ addVerb delta = "operation" ∨
    delta ≠ Int32.minValue ∧ (addVerb delta = "remove" ∨ addVerb delta = "add") := by
  unfold addVerb
  split
  · rename_i h
    exact .inl ⟨h, rfl⟩
  · rename_i h
    split
    · exact .inr ⟨h, .inl rfl⟩
    · exact .inr ⟨h, .inr rfl⟩

theorem addVerb_ne (delta : Int32) : addVerb delta ≠ "set" ∧ addVerb delta ≠ "get" := by
  obtain ⟨-, h⟩ | ⟨-, h | h⟩ := addVerb_cases delta <;> rw [h] <;> decide

theorem addVerb_eq_operation {delta : Int32} (h : addVerb delta = "operation") :
    delta = Int32.minValue := by
  obtain ⟨hmin, -⟩ | ⟨-, hverb | hverb⟩ := addVerb_cases delta
  · exact hmin
  · exact absurd (hverb.symm.trans h) (by decide)
  · exact absurd (hverb.symm.trans h) (by decide)

/-- The verb and the operand tell the number that is added. -/
theorem add_inj {delta delta' : Int32} (hverb : addVerb delta = addVerb delta')
    (h : addOperand delta = addOperand delta') : delta = delta' := by
  by_cases hleast : delta = Int32.minValue
  · rw [addVerb, if_pos hleast] at hverb
    rw [hleast, addVerb_eq_operation hverb.symm]
  by_cases hleast' : delta' = Int32.minValue
  · rw [@addVerb.eq_1 delta', if_pos hleast'] at hverb
    exact absurd (addVerb_eq_operation hverb) hleast
  rw [addVerb, addVerb, if_neg hleast, if_neg hleast'] at hverb
  rw [addOperand, addOperand, if_neg hleast, if_neg hleast'] at h
  by_cases hneg : delta < 0
  · by_cases hneg' : delta' < 0
    · rw [if_pos hneg, if_pos hneg', List.singleton_inj] at h
      exact Int32.toInt_inj.1 (Int.neg_inj.1 (toString_int_inj h))
    · rw [if_pos hneg, if_neg hneg'] at hverb
      exact absurd hverb (by decide)
  · by_cases hneg' : delta' < 0
    · rw [if_neg hneg, if_pos hneg'] at hverb
      exact absurd hverb (by decide)
    · rw [if_neg hneg, if_neg hneg', List.singleton_inj] at h
      exact toString_int32_inj.1 h

/-- Only the least number is added by an operation. -/
theorem addOperand_eq_operation {delta : Int32} {op : ScoreOp} {source : Register}
    (hverb : addVerb delta = "operation") (h : addOperand delta = op.sign :: source.words) :
    delta = Int32.minValue ∧ op = .add ∧ source = .const Int32.minValue := by
  have hleast := addVerb_eq_operation hverb
  rw [addOperand, if_pos hleast, Register.words, Register.words, List.cons.injEq, List.cons.injEq,
    Register.name_inj] at h
  refine ⟨hleast, ScoreOp.sign_inj.1 h.1.symm, ?_⟩
  rw [← h.2.1, hleast]

section Words

variable {c : Command}

theorem eq_of_words_setScore {r : Register} {v : Int32}
    (h : c.words ns = (Command.setScore r v).words ns) : c = .setScore r v := by
  cases c with
  | setScore r' v' =>
    simp only [Command.words, Register.words, List.cons_append, List.nil_append, List.cons.injEq,
      true_and, and_true, Register.name_inj, toString_int32_inj] at h
    rw [h.1, h.2]
  | _ => simp [addVerb_ne] at h

theorem eq_of_words_getScore {r : Register} (h : c.words ns = (Command.getScore r).words ns) :
    c = .getScore r := by
  cases c with
  | getScore r' =>
    simp only [Command.words, Register.words, List.cons_append, List.nil_append, List.cons.injEq,
      true_and, and_true, Register.name_inj] at h
    rw [h]
  | _ => simp [addVerb_ne] at h

theorem eq_of_words_addObjective (h : c.words ns = Command.addObjective.words ns) :
    c = .addObjective := by
  cases c with
  | addObjective => rfl
  | _ => simp at h

/-- Besides itself, only the addition of the least number has the words of an operation. -/
theorem alike_of_words_operation {target source : Register} {op : ScoreOp}
    (h : c.words ns = (Command.operation target op source).words ns) :
    c.Alike ns (.operation target op source) := by
  cases c with
  | operation target' op' source' =>
    simp only [Command.words, Register.words, List.cons_append, List.nil_append, List.cons.injEq,
      true_and, and_true, Register.name_inj, ScoreOp.sign_inj] at h
    rw [h.1, h.2.1, h.2.2]
    exact .refl _
  | addScore r v =>
    simp only [Command.words, Register.words, List.cons_append, List.nil_append, List.cons.injEq,
      true_and, Register.name_inj] at h
    obtain ⟨hverb, rfl, hoperand⟩ := h
    obtain ⟨rfl, rfl, rfl⟩ := addOperand_eq_operation hverb hoperand
    exact .addLeast _
  | _ => simp at h

theorem alike_of_words_addScore {r : Register} {v : Int32}
    (h : c.words ns = (Command.addScore r v).words ns) : c.Alike ns (.addScore r v) := by
  cases c with
  | addScore r' v' =>
    simp only [Command.words, Register.words, List.cons_append, List.nil_append, List.cons.injEq,
      true_and, Register.name_inj] at h
    obtain ⟨hverb, rfl, hoperand⟩ := h
    rw [add_inj hverb hoperand]
    exact .refl _
  | operation target op source =>
    simp only [Command.words, Register.words, List.cons_append, List.nil_append, List.cons.injEq,
      true_and, Register.name_inj] at h
    obtain ⟨hverb, rfl, hoperand⟩ := h
    obtain ⟨rfl, rfl, rfl⟩ := addOperand_eq_operation hverb.symm hoperand.symm
    exact .leastAdded _
  | _ => simp [(addVerb_ne _).1.symm, (addVerb_ne _).2.symm] at h

/-! ### Storages -/

section Storages

variable {path path' source source' : Path} {value value' : Nbt} (hns : ns ≠ sharedNamespace)

include hns

/-- A path and a value behind it tell themselves. -/
theorem told_value (front mid : List String) (hpath : path.IsWorded) (hpath' : path'.IsWorded)
    (hvalue : value.IsWorded) (hvalue' : value'.IsWorded)
    (h : front ++ path.words ns ++ (mid ++ segments ' ' value.render) =
      front ++ path'.words ns ++ (mid ++ segments ' ' value'.render)) :
    path = path' ∧ value = value' := by
  simp only [Path.words, List.append_assoc, List.append_cancel_left_eq, List.cons_append,
    List.nil_append, List.cons.injEq] at h
  exact ⟨Path.told hns hpath hpath' h.1 h.2.1,
    (Nbt.render_inj hvalue hvalue').1 (segments_inj h.2.2)⟩

/-- So do two paths. -/
theorem told_paths (front mid : List String) (hpath : path.IsWorded) (hpath' : path'.IsWorded)
    (hsource : source.IsWorded) (hsource' : source'.IsWorded)
    (h : front ++ path.words ns ++ (mid ++ source.words ns) =
      front ++ path'.words ns ++ (mid ++ source'.words ns)) :
    path = path' ∧ source = source' := by
  simp only [Path.words, List.append_assoc, List.append_cancel_left_eq, List.cons_append,
    List.nil_append, List.cons.injEq, and_true] at h
  exact ⟨Path.told hns hpath hpath' h.1 h.2.1, Path.told hns hsource hsource' h.2.2.1 h.2.2.2⟩

theorem told_path (front : List String) (hpath : path.IsWorded) (hpath' : path'.IsWorded)
    (h : front ++ path.words ns = front ++ path'.words ns) : path = path' := by
  simp only [Path.words, List.append_cancel_left_eq, List.cons.injEq, and_true] at h
  exact Path.told hns hpath hpath' h.1 h.2

variable (hc : c.IsWritten)

include hc

theorem eq_of_words_append (hd : (Command.append path value).IsWritten)
    (h : c.words ns = (Command.append path value).words ns) : c = .append path value := by
  cases c with
  | append path' value' =>
    obtain ⟨rfl, rfl⟩ := told_value hns ["data", "modify", "storage"] ["append", "value"]
      (hc.paths _ List.mem_cons_self) (hd.paths _ List.mem_cons_self)
      (hc.values _ List.mem_cons_self) (hd.values _ List.mem_cons_self) h
    rfl
  | _ => simp [Path.words] at h

theorem eq_of_words_setData (hd : (Command.setData path value).IsWritten)
    (h : c.words ns = (Command.setData path value).words ns) : c = .setData path value := by
  cases c with
  | setData path' value' =>
    obtain ⟨rfl, rfl⟩ := told_value hns ["data", "modify", "storage"] ["set", "value"]
      (hc.paths _ List.mem_cons_self) (hd.paths _ List.mem_cons_self)
      (hc.values _ List.mem_cons_self) (hd.values _ List.mem_cons_self) h
    rfl
  | _ => simp [Path.words] at h

theorem eq_of_words_appendFrom (hd : (Command.appendFrom path source).IsWritten)
    (h : c.words ns = (Command.appendFrom path source).words ns) : c = .appendFrom path source := by
  have hmem : ∀ {p q : Path}, q ∈ [p, q] := List.mem_cons_of_mem _ List.mem_cons_self
  cases c with
  | appendFrom path' source' =>
    obtain ⟨rfl, rfl⟩ := told_paths hns ["data", "modify", "storage"] ["append", "from", "storage"]
      (hc.paths _ List.mem_cons_self) (hd.paths _ List.mem_cons_self) (hc.paths _ hmem)
      (hd.paths _ hmem) h
    rfl
  | _ => simp [Path.words] at h

theorem eq_of_words_setFrom (hd : (Command.setFrom path source).IsWritten)
    (h : c.words ns = (Command.setFrom path source).words ns) : c = .setFrom path source := by
  have hmem : ∀ {p q : Path}, q ∈ [p, q] := List.mem_cons_of_mem _ List.mem_cons_self
  cases c with
  | setFrom path' source' =>
    obtain ⟨rfl, rfl⟩ := told_paths hns ["data", "modify", "storage"] ["set", "from", "storage"]
      (hc.paths _ List.mem_cons_self) (hd.paths _ List.mem_cons_self) (hc.paths _ hmem)
      (hd.paths _ hmem) h
    rfl
  | _ => simp [Path.words] at h

theorem eq_of_words_remove (hd : (Command.remove path).IsWritten)
    (h : c.words ns = (Command.remove path).words ns) : c = .remove path := by
  cases c with
  | remove path' =>
    rw [told_path hns ["data", "remove", "storage"] (hc.paths _ List.mem_cons_self)
      (hd.paths _ List.mem_cons_self) h]
  | _ => simp at h

theorem eq_of_words_getData (hd : (Command.getData path).IsWritten)
    (h : c.words ns = (Command.getData path).words ns) : c = .getData path := by
  cases c with
  | getData path' =>
    rw [told_path hns ["data", "get", "storage"] (hc.paths _ List.mem_cons_self)
      (hd.paths _ List.mem_cons_self) h]
  | _ => simp at h

end Storages

/-! ### Calls -/

/-- The name of a sequence does not read like that of a tag. -/
theorem segments_name_ne (hns : Compile.checkNamespace ns = .ok ()) {f : Symbol} (h : f.IsNamed)
    (tag : Tag) : segments ' ' (f.qualifiedName ns) ≠ ["#" ++ tag.name] := by
  intro heq
  have htag : segments ' ' ("#" ++ tag.name) = ["#" ++ tag.name] := by cases tag <;> decide
  have hsign : '#' ∈ ("#" ++ tag.name).toList := by
    rw [String.toList_append]
    exact List.mem_append_left _ (by decide)
  rw [← segments_inj (heq.trans htag.symm)] at hsign
  exact h.plainText hns hsign

theorem alike_of_words_call (hns : Compile.checkNamespace ns = .ok ()) {f : Symbol} (hf : f.IsNamed)
    (h : c.words ns = (Command.call f).words ns) : c.Alike ns (.call f) := by
  cases c with
  | call g => exact .call (segments_inj (List.cons.inj h).2)
  | callTag tag => exact absurd (List.cons.inj h).2.symm (segments_name_ne hns hf tag)
  | _ => simp at h

theorem eq_of_words_callTag (hns : Compile.checkNamespace ns = .ok ()) (hc : c.IsWritten) {tag : Tag}
    (h : c.words ns = (Command.callTag tag).words ns) : c = .callTag tag := by
  cases c with
  | callTag tag' =>
    have hname : "#" ++ tag'.name = "#" ++ tag.name := (List.cons.inj (List.cons.inj h).2).1
    rw [Tag.name_inj.1 ((String.append_right_inj _).1 hname)]
  | call f =>
    exact absurd (List.cons.inj h).2 (segments_name_ne hns (hc.callees f List.mem_cons_self) tag)
  | _ => simp at h

end Words

/-! ### All commands -/

/-- Commands with the same words are alike. -/
theorem alike_of_words (hns : Compile.checkNamespace ns = .ok ()) {c d : Command}
    (hc : c.IsWritten) (hd : d.IsWritten) (h : c.words ns = d.words ns) : c.Alike ns d := by
  have hshared := (Compile.checkNamespace_eq_ok hns).1
  induction d generalizing c with
  | setScore r v => exact eq_of_words_setScore h ▸ .refl _
  | addScore r v => exact alike_of_words_addScore h
  | operation target op source => exact alike_of_words_operation h
  | getScore r => exact eq_of_words_getScore h ▸ .refl _
  | append path value => exact eq_of_words_append hshared hc hd h ▸ .refl _
  | appendFrom path source => exact eq_of_words_appendFrom hshared hc hd h ▸ .refl _
  | setData path value => exact eq_of_words_setData hshared hc hd h ▸ .refl _
  | setFrom path source => exact eq_of_words_setFrom hshared hc hd h ▸ .refl _
  | remove path => exact eq_of_words_remove hshared hc hd h ▸ .refl _
  | getData path => exact eq_of_words_getData hshared hc hd h ▸ .refl _
  | call f => exact alike_of_words_call hns (hd.callees f List.mem_cons_self) h
  | callTag tag => exact eq_of_words_callTag hns hc h ▸ .refl _
  | addObjective => exact eq_of_words_addObjective h ▸ .refl _
  | test ms =>
    cases c with
    | test ms' =>
      have hms : ms'.flatMap (Modifier.words ns) ++ [] = ms.flatMap (Modifier.words ns) ++ [] :=
        congrArg (· ++ []) (List.cons.inj h).2
      rw [(modifiers_append_inj hshared hc.paths hd.paths isBehind_nil isBehind_nil hms).1]
      exact .refl _
    -- A test ends where its modifiers end, a guarded command goes on with "run".
    | execute ms' run =>
      have hpaths := (List.forall_mem_append.1 hc.paths).1
      have hms : ms'.flatMap (Modifier.words ns) ++ "run" :: run.words ns =
          ms.flatMap (Modifier.words ns) ++ [] := by
        rw [List.append_nil]
        exact (List.cons.inj h).2
      cases (modifiers_append_inj hshared hpaths hd.paths (isBehind_run _) isBehind_nil hms).2
    | _ => simp at h
  | execute ms run ih =>
    obtain ⟨hpaths, hrun⟩ := List.forall_mem_append.1 hd.paths
    cases c with
    | test ms' =>
      have hms : ms'.flatMap (Modifier.words ns) ++ [] =
          ms.flatMap (Modifier.words ns) ++ "run" :: run.words ns := by
        rw [List.append_nil]
        exact (List.cons.inj h).2
      cases (modifiers_append_inj hshared hc.paths hpaths isBehind_nil (isBehind_run _) hms).2
    | execute ms' run' =>
      obtain ⟨hpaths', hrun'⟩ := List.forall_mem_append.1 hc.paths
      obtain ⟨rfl, htail⟩ := modifiers_append_inj hshared hpaths' hpaths (isBehind_run _)
        (isBehind_run _) (List.cons.inj h).2
      exact .execute _ (ih ⟨hrun', hc.values, hc.callees⟩ ⟨hrun, hd.values, hd.callees⟩
        (List.cons.inj htail).2)
    | _ => simp at h

/-- The text of a command tells the command, up to the symbols that share a name and the two ways
    in which the least number is added; and the text of a value tells the value. -/
theorem render_unambiguous (hns : Compile.checkNamespace ns = .ok ()) :
    (∀ c d : Command, c.IsWritten → d.IsWritten →
      (c.render ns = d.render ns ↔ c.Alike ns d)) ∧
      ∀ v w : Nbt, v.IsWorded → w.IsWorded → (v.render = w.render ↔ v = w) := by
  have hblank : ' ' ∉ ns.toList := fun h =>
    absurd (List.all_eq_true.1 (Compile.all_isNameChar_of_checkNamespace hns) ' ' h) (by decide)
  refine ⟨fun c d hc hd => ⟨fun h => ?_, Command.Alike.render_eq⟩, fun v w => Nbt.render_inj⟩
  refine alike_of_words hns hc hd ?_
  rw [← segments_render hblank hc.paths, h, segments_render hblank hd.paths]

/-- A string that ends with an escaped mark does not read like one that ends with a backslash. -/
theorem render_unambiguous_escapes : Compile.checkNamespace "demo" = .ok () ∧
    (Command.setData (.own "log") (.text "a\\")).render "demo" ≠
      (Command.setData (.own "log") (.text "a\"")).render "demo" := by
  have hwritten : ∀ s, (Command.setData (.own "log") (.text s)).IsWritten := by
    refine fun s => ⟨List.forall_mem_singleton.2 ?_, List.forall_mem_singleton.2 ?_, ?_⟩
    · exact List.forall_mem_singleton.2 (by decide)
    · exact fun _ h => nomatch h
    · exact fun _ h => nomatch h
  have hns : Compile.checkNamespace "demo" = .ok () := by decide
  refine ⟨hns, fun h => ?_⟩
  have hsame : ∀ {s t : String}, (Command.setData (.own "log") (.text s)).Alike "demo"
      (.setData (.own "log") (.text t)) → s = t := by
    intro s t halike
    cases halike
    rfl
  exact absurd (hsame (((render_unambiguous hns).1 _ _ (hwritten _) (hwritten _)).1 h)) (by decide)

end WasmPack
