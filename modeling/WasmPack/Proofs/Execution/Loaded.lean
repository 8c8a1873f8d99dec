/-
  WasmPack.Proofs.Execution.Loaded

  Which functions and tags are there once programs have been loaded.
-/
import WasmPack.Proofs.Execution.Names
import WasmPack.Proofs.Execution.Runs
import WasmPack.Proofs.Execution.Tags

namespace WasmPack.Machine

variable {code : Code} {ps : List Program} {p : Program} {name : String} {f : Function}

/-! ## Functions -/

/-- The function that a sequence of a program becomes. -/
def functionOf (p : Program) (s : Sequence) : Function := ⟨p.ns, s.commands⟩

theorem functions_addSequence (s : Sequence) :
    (Code.addSequence p code s).functions[name]? =
      if p.nameOf s = name then some (functionOf p s) else code.functions[name]? := by
  unfold Code.addSequence
  rw [Std.HashMap.getElem?_insert]
  simp only [beq_iff_eq]
  rfl

/-- What stands under a name is found by it. -/
theorem function_of_getElem? (h : code.functions[name]? = some f) : code.function name = .ok f := by
  unfold Code.function
  rw [h]
  rfl

/-- Behind sequences of which some have a name, and all of those become one function, the name is
    that function's; a name that none has means what it meant before. -/
theorem functions_foldl_addSequence (ss : List Sequence)
    (hf : ∀ s ∈ ss, p.nameOf s = name → functionOf p s = f)
    (h : (∃ s ∈ ss, p.nameOf s = name) ∨ code.functions[name]? = some f) :
    (ss.foldl (Code.addSequence p) code).functions[name]? = some f := by
  induction ss generalizing code with
  | nil =>
    obtain ⟨s, hs, -⟩ | h := h
    · cases hs
    · exact h
  | cons s ss ih =>
    refine ih (fun t ht => hf t (List.mem_cons_of_mem s ht)) ?_
    by_cases hs : p.nameOf s = name
    · right
      rw [functions_addSequence, if_pos hs, hf s List.mem_cons_self hs]
    · obtain ⟨t, ht, hn⟩ | h := h
      · obtain rfl | ht := List.mem_cons.1 ht
        · exact absurd hn hs
        · exact .inl ⟨t, ht, hn⟩
      · right
        rw [functions_addSequence, if_neg hs, h]

/-- The same behind programs. -/
theorem functions_foldl_addProgram
    (hf : ∀ p ∈ ps, ∀ s ∈ p.sequences, p.nameOf s = name → functionOf p s = f)
    (h : (∃ p ∈ ps, ∃ s ∈ p.sequences, p.nameOf s = name) ∨ code.functions[name]? = some f) :
    (ps.foldl Code.addProgram code).functions[name]? = some f := by
  induction ps generalizing code with
  | nil =>
    obtain ⟨p, hp, -⟩ | h := h
    · cases hp
    · exact h
  | cons p ps ih =>
    refine ih (fun q hq => hf q (List.mem_cons_of_mem p hq)) ?_
    have hfold : (∃ s ∈ p.sequences, p.nameOf s = name) ∨ code.functions[name]? = some f →
        (code.addProgram p).functions[name]? = some f :=
      functions_foldl_addSequence p.sequences (hf p List.mem_cons_self)
    obtain ⟨q, hq, hn⟩ | h := h
    · obtain rfl | hq := List.mem_cons.1 hq
      · exact .inr (hfold (.inl hn))
      · exact .inl ⟨q, hq, hn⟩
    · exact .inr (hfold (.inr h))

/-- A name that some sequences have means the function that they all become. -/
theorem function_foldl_addProgram {q : Program} {t : Sequence} (hq : q ∈ ps)
    (ht : t ∈ q.sequences) (hn : q.nameOf t = name)
    (hf : ∀ p ∈ ps, ∀ s ∈ p.sequences, p.nameOf s = name → functionOf p s = f) :
    (ps.foldl Code.addProgram code).function name = .ok f :=
  function_of_getElem? (functions_foldl_addProgram hf (.inl ⟨q, hq, t, ht, hn⟩))

/-- The last sequences of a program that have a name make it what it means, if no other program has
    a sequence of that name. -/
theorem function_of_last {pre post : List Sequence} {t : Sequence} (hp : p ∈ ps)
    (hsplit : p.sequences = pre ++ post) (ht : t ∈ post) (hn : p.nameOf t = name)
    (hlast : ∀ s ∈ post, p.nameOf s = name → functionOf p s = functionOf p t)
    (hother : ∀ q ∈ ps, (∃ s ∈ q.sequences, q.nameOf s = name) → q = p) :
    (ps.foldl Code.addProgram code).function name = .ok (functionOf p t) := by
  have hadd : ∀ code : Code, (code.addProgram p).functions[name]? = some (functionOf p t) := by
    intro code
    show (p.sequences.foldl (Code.addSequence p) code).functions[name]? = _
    rw [hsplit, List.foldl_append]
    exact functions_foldl_addSequence post hlast (.inl ⟨t, ht, hn⟩)
  suffices h : (p ∈ ps ∨ code.functions[name]? = some (functionOf p t)) →
      (ps.foldl Code.addProgram code).functions[name]? = some (functionOf p t) from
    function_of_getElem? (h (.inl hp))
  clear hp
  intro h
  induction ps generalizing code with
  | nil => exact h.elim (fun hp => nomatch hp) id
  | cons q ps ih =>
    refine ih (fun r hr => hother r (List.mem_cons_of_mem q hr)) ?_
    by_cases hq : q = p
    · exact .inr (hq ▸ hadd code)
    · obtain hp | h := h
      · exact .inl ((List.mem_cons.1 hp).resolve_left fun heq => hq heq.symm)
      · refine .inr (functions_foldl_addSequence q.sequences (fun s hs hname => ?_) (.inr h))
        exact absurd (hother q List.mem_cons_self ⟨s, hs, hname⟩) hq

/-- What a name means has come from a sequence of that name, or was there before. -/
theorem exists_of_foldl_addSequence {ss : List Sequence}
    (h : (ss.foldl (Code.addSequence p) code).functions[name]? = some f) :
    (∃ s ∈ ss, p.nameOf s = name ∧ f = functionOf p s) ∨ code.functions[name]? = some f := by
  induction ss generalizing code with
  | nil => exact .inr h
  | cons s ss ih =>
    obtain ⟨t, ht, hf⟩ | h := ih h
    · exact .inl ⟨t, List.mem_cons_of_mem s ht, hf⟩
    · rw [functions_addSequence] at h
      split at h
      · rename_i hs
        exact .inl ⟨s, List.mem_cons_self, hs, (Option.some.inj h).symm⟩
      · exact .inr h

/-- The same behind programs. -/
theorem exists_of_foldl_addProgram
    (h : (ps.foldl Code.addProgram code).functions[name]? = some f) :
    (∃ p ∈ ps, ∃ s ∈ p.sequences, p.nameOf s = name ∧ f = functionOf p s) ∨
      code.functions[name]? = some f := by
  induction ps generalizing code with
  | nil => exact .inr h
  | cons p ps ih =>
    obtain ⟨q, hq, s, hs, hf⟩ | h := ih h
    · exact .inl ⟨q, List.mem_cons_of_mem p hq, s, hs, hf⟩
    · obtain ⟨s, hs, hf⟩ | h := exists_of_foldl_addSequence h
      · exact .inl ⟨p, List.mem_cons_self, s, hs, hf⟩
      · exact .inr h

/-- Every function of programs that have been loaded comes from a sequence of its name. -/
theorem exists_of_function (h : (ps.foldl Code.addProgram {}).function name = .ok f) :
    ∃ p ∈ ps, ∃ s ∈ p.sequences, p.nameOf s = name ∧ f = functionOf p s := by
  unfold Code.function at h
  split at h
  · rename_i g hg
    cases h
    obtain h | h := exists_of_foldl_addProgram hg
    · exact h
    · have hempty : (∅ : Std.HashMap String Function)[name]? = none := Std.HashMap.getElem?_empty
      cases hempty.symm.trans h
  · cases h

/-! ## Members of tags -/

theorem functionsOf_append {xs ys : List String} {fs gs : List Function}
    (hx : code.functionsOf xs = .ok fs) (hy : code.functionsOf ys = .ok gs) :
    code.functionsOf (xs ++ ys) = .ok (fs ++ gs) := by
  induction xs generalizing fs with
  | nil =>
    cases hx
    exact hy
  | cons x xs ih =>
    obtain ⟨rest, hrest, hx⟩ := except_bind_eq_ok.1 hx
    obtain ⟨f, hf, hx⟩ := except_bind_eq_ok.1 hx
    cases hx
    exact except_bind_eq_ok.2 ⟨rest ++ gs, ih hrest, except_bind_eq_ok.2 ⟨f, hf, rfl⟩⟩

/-! ## Programs side by side -/

/-- Programs whose sequences have names in their own namespaces, which are different ones. -/
structure Modular (ps : List Program) : Prop where
  named : ∀ p ∈ ps, ∀ s ∈ p.sequences, InNamespace p.ns (p.nameOf s)
  colonless : ∀ p ∈ ps, ':' ∉ p.ns.toList
  apart : ∀ p ∈ ps, ∀ q ∈ ps, p.ns = q.ns → p = q

/-- A sequence is found by its name when no other sequence of its program has that name. -/
theorem Modular.function_eq (h : Modular ps) {s : Sequence} (hp : p ∈ ps) (hs : s ∈ p.sequences)
    (hd : ∀ t ∈ p.sequences, p.nameOf t = p.nameOf s → t.commands = s.commands) :
    (ps.foldl Code.addProgram code).function (p.nameOf s) = .ok (functionOf p s) := by
  refine function_foldl_addProgram hp hs rfl fun q hq t ht hn => ?_
  have hq' := h.named q hq t ht
  rw [hn] at hq'
  have hns := hq'.unique (h.named p hp s hs) (h.colonless q hq) (h.colonless p hp)
  obtain rfl := h.apart q hq p hp hns
  rw [functionOf, functionOf, hd t ht hn]

/-- What a name in a namespace means comes from a sequence of a program of that namespace. -/
theorem Modular.exists_sequence (h : Modular ps) {ns : String} (hname : InNamespace ns name)
    (hns : ':' ∉ ns.toList) (hf : (ps.foldl Code.addProgram {}).function name = .ok f) :
    ∃ p ∈ ps, p.ns = ns ∧ ∃ s ∈ p.sequences, p.nameOf s = name ∧ f = functionOf p s := by
  obtain ⟨p, hp, s, hs, hn, hf⟩ := exists_of_function hf
  have hp' := h.named p hp s hs
  rw [hn] at hp'
  exact ⟨p, hp, hp'.unique hname (h.colonless p hp) hns, s, hs, hn, hf⟩

end WasmPack.Machine
