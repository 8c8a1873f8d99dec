/-
  WasmPack.Proofs.Command.Printable

  Commands on lines of their own.  A command is printable if what its module
  gave it is: the keys of its paths, the texts in its values, and the names of
  exports and imports that it calls.  Its text is then a line, whatever else
  the command says.
-/
import WasmPack.Proofs.Closed.Mentions
import WasmPack.Proofs.Command.Characters

namespace WasmPack

variable {s t ns : String} {c : Command} {g : Modifier}

/-! ## Lines -/

/-- The text has printable characters only. -/
abbrev Printable (text : String) : Prop := Spelled isPrintableChar text

/-- A line of a file that is not empty. -/
def IsLine (text : String) : Prop := text ≠ "" ∧ Printable text

instance (text : String) : Decidable (IsLine text) := inferInstanceAs (Decidable (_ ∧ _))

theorem IsLine.append (hs : IsLine s) (ht : Printable t) : IsLine (s ++ t) :=
  ⟨fun h => hs.1 (String.append_eq_empty_iff.1 h).1, hs.2.append ht⟩

theorem Printable.not_mem_newline (h : Printable t) : '\n' ∉ t.toList := fun hc =>
  absurd (spelled_iff.1 h '\n' hc) (by decide)

/-! ## Printable commands -/

/-- What a command says that the signs of its form do not. -/
def Command.texts (c : Command) : List String :=
  c.paths.flatMap Path.keys ++ c.values.flatMap Nbt.texts ++ c.callees.flatMap Symbol.parts

/-- The texts that the command was given are printable. -/
def Command.isPrintable (c : Command) : Bool := c.texts.all fun t => t.toList.all isPrintableChar

theorem Command.isPrintable_iff : c.isPrintable = true ↔
    (∀ p ∈ c.paths, ∀ k ∈ p.keys, Printable k) ∧ (∀ v ∈ c.values, ∀ t ∈ v.texts, Printable t) ∧
      ∀ f ∈ c.callees, ∀ t ∈ f.parts, Printable t := by
  simp only [isPrintable, texts, List.all_append, List.all_flatMap, List.all_eq_true,
    Bool.and_eq_true_iff, and_assoc, Printable, Spelled]

/-- A condition adds no text. -/
theorem Command.isPrintable_guarded (hg : g.paths = []) :
    (c.guarded g).isPrintable = c.isPrintable := by
  rw [isPrintable, texts, paths_guarded, hg, values_guarded, callees_guarded]
  rfl

@[simp] theorem Command.isPrintable_ifIn (c : Command) (r : Register) (range : Range) :
    (c.ifIn r range).isPrintable = c.isPrintable := isPrintable_guarded rfl

/-! ## Their texts -/

theorem printable_register (r : Register) : Printable r.render := by
  cases r with
  | const n =>
    exact ((Spelled.append (by decide) (.int lenient_isPrintableChar _)).append (by decide)).append
      (by decide)
  | _ => decide

theorem printable_condition (condition : Condition) : Printable condition.render := by
  cases condition with
  | isIn r range =>
    exact ((Spelled.append (by decide) (printable_register r)).append (by decide)).append
      (.range lenient_isPrintableChar range)
  | compare lhs op rhs =>
    have hsign : Printable op.sign := by cases op <;> decide
    exact ((((Spelled.append (by decide) (printable_register lhs)).append (by decide)).append
      hsign).append (by decide)).append (printable_register rhs)

section Render

variable (hns : Printable ns)

include hns

theorem printable_path {p : Path} (h : ∀ k ∈ p.keys, Printable k) : Printable (p.render ns) :=
  .path lenient_isPrintableChar hns h

theorem printable_modifier {m : Modifier} (h : ∀ p ∈ m.paths, ∀ k ∈ p.keys, Printable k) :
    Printable (m.render ns) := by
  cases m with
  | onlyIf condition => exact .append (by decide) (printable_condition condition)
  | exceptIf condition => exact .append (by decide) (printable_condition condition)
  | store kind target =>
    have hkind : Printable kind.name := by cases kind <;> decide
    have htarget : Printable (target.render ns) := by
      cases target with
      | score r => exact .append (by decide) (printable_register r)
      | storage path tag =>
        have hpath := printable_path hns (h path List.mem_cons_self)
        have htag : Printable tag.name := by cases tag <;> decide
        exact (((Spelled.append (by decide) hpath).append (by decide)).append htag).append
          (by decide)
    exact ((Spelled.append (by decide) hkind).append (by decide)).append htarget

theorem printable_modifiers {ms : List Modifier}
    (h : ∀ p ∈ ms.flatMap Modifier.paths, ∀ k ∈ p.keys, Printable k) :
    Printable (renderModifiers ns ms) := by
  induction ms with
  | nil => exact .empty
  | cons m ms ih =>
    rw [List.flatMap_cons] at h
    obtain ⟨hm, hms⟩ := List.forall_mem_append.1 h
    exact (Spelled.append (by decide) (printable_modifier hns hm)).append (ih hms)

omit hns in
theorem isLine_renderAdd (r : Register) (delta : Int32) : IsLine (renderAdd r delta) := by
  have hr := printable_register r
  have hint : ∀ n : Int, Printable (toString n) := .int lenient_isPrintableChar
  unfold renderAdd
  split
  · exact ((IsLine.append (by decide) hr).append (by decide)).append (printable_register _)
  split
  · exact ((IsLine.append (by decide) hr).append (by decide)).append (hint _)
  · exact ((IsLine.append (by decide) hr).append (by decide)).append (hint _)

/-- **The text of a printable command is a line.** -/
theorem isLine_render (h : c.isPrintable = true) : IsLine (c.render ns) := by
  obtain ⟨hpaths, hvalues, hcallees⟩ := Command.isPrintable_iff.1 h
  clear h
  have hint : ∀ n : Int, Printable (toString n) := .int lenient_isPrintableChar
  have hpath : ∀ {p : Path}, (∀ k ∈ p.keys, Printable k) → Printable (p.render ns) :=
    printable_path hns
  have hvalue : ∀ {v : Nbt}, (∀ t ∈ v.texts, Printable t) → Printable v.render := fun h =>
    .value lenient_isPrintableChar _ h
  induction c with
  | setScore r v =>
    exact ((IsLine.append (by decide) (printable_register r)).append (by decide)).append (hint _)
  | addScore r v => exact isLine_renderAdd r v
  | operation target op source =>
    have hsign : Printable op.sign := by cases op <;> decide
    exact ((((IsLine.append (by decide) (printable_register target)).append (by decide)).append
      hsign).append (by decide)).append (printable_register source)
  | getScore r => exact .append (by decide) (printable_register r)
  | append path value | setData path value =>
    obtain ⟨hp, -⟩ := List.forall_mem_cons.1 hpaths
    obtain ⟨hv, -⟩ := List.forall_mem_cons.1 hvalues
    exact ((IsLine.append (by decide) (hpath hp)).append (by decide)).append (hvalue hv)
  | appendFrom path source | setFrom path source =>
    obtain ⟨hp, hpaths⟩ := List.forall_mem_cons.1 hpaths
    obtain ⟨hq, -⟩ := List.forall_mem_cons.1 hpaths
    exact ((IsLine.append (by decide) (hpath hp)).append (by decide)).append (hpath hq)
  | remove path | getData path =>
    obtain ⟨hp, -⟩ := List.forall_mem_cons.1 hpaths
    exact .append (by decide) (hpath hp)
  | call symbol =>
    obtain ⟨hf, -⟩ := List.forall_mem_cons.1 hcallees
    exact .append (by decide) (.qualifiedName lenient_isPrintableChar hns hf)
  | callTag tag =>
    have htag : Printable tag.name := by cases tag <;> decide
    exact .append (by decide) htag
  | addObjective =>
    exact (by decide : IsLine ("scoreboard objectives add " ++ objective ++ " dummy"))
  | test ms => exact .append (by decide) (printable_modifiers hns hpaths)
  | execute ms run ih =>
    obtain ⟨hms, hrun⟩ := List.forall_mem_append.1 hpaths
    exact ((IsLine.append (by decide) (printable_modifiers hns hms)).append (by decide)).append
      (ih hrun hvalues hcallees).2

end Render

end WasmPack
