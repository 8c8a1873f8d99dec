/-
  WasmPack.Proofs.Execution.Names

  In which namespaces the names of sequences lie.
-/
import WasmPack.Symbol

namespace WasmPack

/-! ## Namespaces -/

/-- A character that stands in neither of two texts separates what is in front of it from what is
    behind it. -/
theorem append_separator_inj {c : Char} {u v x y : List Char} (hu : c ∉ u) (hv : c ∉ v) :
    u ++ c :: x = v ++ c :: y ↔ u = v ∧ x = y := by
  induction u generalizing v with
  | nil =>
    cases v with
    | nil => simp
    | cons d v =>
      rw [List.mem_cons, not_or] at hv
      simp [hv.1]
  | cons d u ih =>
    rw [List.mem_cons, not_or] at hu
    cases v with
    | nil => simp [Ne.symm hu.1]
    | cons e v =>
      rw [List.mem_cons, not_or] at hv
      rw [List.cons_append, List.cons_append, List.cons.injEq, List.cons.injEq, ih hu.2 hv.2,
        and_assoc]

/-- The name lies in a namespace. -/
def InNamespace (ns name : String) : Prop := ∃ path, name = ns ++ ":" ++ path

/-- A colon ends the namespace of a name, so a name lies in one namespace only. -/
theorem InNamespace.unique {ns ns' name : String} (h : InNamespace ns name) (h' : InNamespace ns' name)
    (hc : ':' ∉ ns.toList) (hc' : ':' ∉ ns'.toList) : ns = ns' := by
  obtain ⟨x, hx⟩ := h
  obtain ⟨y, hy⟩ := h'
  have heq : ns.toList ++ ':' :: x.toList = ns'.toList ++ ':' :: y.toList := by
    have happ := congrArg String.toList (hx.symm.trans hy)
    simpa [String.toList_append] using happ
  rw [append_separator_inj hc hc'] at heq
  exact String.toList_inj.1 heq.1

theorem InNamespace.append {ns name : String} (h : InNamespace ns name) (rest : String) :
    InNamespace ns (name ++ rest) := by
  obtain ⟨path, rfl⟩ := h
  exact ⟨path ++ rest, by rw [String.append_assoc]⟩

/-- A text that begins with a colon, behind a namespace. -/
theorem inNamespace_of_colon (ns path : String) {text : String} (h : text = ":" ++ path) :
    InNamespace ns (ns ++ text) :=
  ⟨path, by rw [h, String.append_assoc]⟩

theorem inNamespace_internal (ns path : String) : InNamespace ns (internal ns path) :=
  (inNamespace_of_colon ns "__internal/" rfl).append path

theorem inNamespace_publicMemory (ns name : String) (op : MemoryOp) :
    InNamespace ns (publicMemory ns name op) :=
  (((inNamespace_of_colon ns "__mems/" rfl).append name).append "/").append op.name

theorem inNamespace_publicGlobal (ns name : String) (op : GlobalOp) :
    InNamespace ns (publicGlobal ns name op) :=
  (((inNamespace_of_colon ns "__globals/" rfl).append name).append "/").append op.name

/-- The symbols of a module's own sequences. -/
def Symbol.IsOwn : Symbol → Prop
  | .tree (.swapIn _) _ _ => True
  | .tree (.swapOut _) _ _ => True
  | .tree _ _ _ => False
  | .importFunc _ => False
  | .importMemory _ _ => False
  | .importGlobal _ _ => False
  | .routine _ => False
  | _ => True

/-- The names of a module's own sequences lie in its namespace. -/
theorem Symbol.IsOwn.inNamespace {s : Symbol} (h : s.IsOwn) (ns : String) :
    InNamespace ns (s.qualifiedName ns) := by
  cases s with
  | func i => exact inNamespace_internal ns _
  | fragment i => exact inNamespace_internal ns _
  | memory i op => exact inNamespace_internal ns _
  | swapOutAll => exact inNamespace_internal ns _
  | global i op => exact inNamespace_internal ns _
  | tree base lo hi =>
    cases base with
    | swapIn m => exact (((inNamespace_internal ns _).append "/").append _ |>.append "-").append _
    | swapOut m => exact (((inNamespace_internal ns _).append "/").append _ |>.append "-").append _
    | byteGet => exact h.elim
    | byteSet => exact h.elim
  | exportFunc name => exact ⟨name, rfl⟩
  | exportMemory name op => exact inNamespace_publicMemory ns name op
  | exportGlobal name op => exact inNamespace_publicGlobal ns name op
  | importFunc id => exact h.elim
  | importMemory id op => exact h.elim
  | importGlobal id op => exact h.elim
  | init => exact inNamespace_of_colon ns "__init" rfl
  | routine r => exact h.elim

/-- The symbols of the sequences of the library. -/
def Symbol.IsShared : Symbol → Prop
  | .tree .byteGet _ _ => True
  | .tree .byteSet _ _ => True
  | .routine _ => True
  | _ => False

/-- The names of the sequences of the library lie in the shared namespace. -/
theorem Symbol.IsShared.inNamespace {s : Symbol} (h : s.IsShared) (ns : String) :
    InNamespace sharedNamespace (s.qualifiedName ns) := by
  cases s with
  | tree base lo hi =>
    cases base with
    | swapIn m => exact h.elim
    | swapOut m => exact h.elim
    | byteGet =>
      exact (((inNamespace_internal sharedNamespace _).append "/").append _ |>.append "-").append _
    | byteSet =>
      exact (((inNamespace_internal sharedNamespace _).append "/").append _ |>.append "-").append _
  | routine r => exact inNamespace_internal sharedNamespace r.name
  | _ => exact h.elim

/-! ## Numbers in names -/

theorem toString_nat_inj {m n : Nat} : (toString m : String) = toString n ↔ m = n := by
  constructor
  · intro h
    have hdigits : Nat.toDigits 10 m = Nat.toDigits 10 n := by
      rw [← Nat.toList_repr, ← Nat.toList_repr]
      exact congrArg String.toList h
    rw [← Nat.ofDigitChars_ten_toDigits (n := m), hdigits, Nat.ofDigitChars_ten_toDigits]
  · rintro rfl
    rfl

/-- The text of a number is made of digits. -/
theorem isDigit_of_mem_toString {n : Nat} {c : Char} (h : c ∈ (toString n : String).toList) :
    c.isDigit = true := by
  have h : c ∈ n.repr.toList := h
  rw [Nat.toList_repr] at h
  exact Nat.isDigit_of_mem_toDigits (by decide) (by decide) h

theorem not_mem_toString_of_not_isDigit {n : Nat} {c : Char} (h : c.isDigit = false) :
    c ∉ (toString n : String).toList := by
  intro hc
  rw [isDigit_of_mem_toString hc] at h
  cases h

/-- The two numbers in the name of a node are told apart. -/
theorem range_text_inj {lo hi lo' hi' : Nat} :
    (toString lo ++ "-" ++ toString hi : String) = toString lo' ++ "-" ++ toString hi' ↔
      lo = lo' ∧ hi = hi' := by
  have hdash : '-'.isDigit = false := rfl
  have hcut : ∀ a b : String, (a ++ "-" ++ b).toList = a.toList ++ '-' :: b.toList := by
    intro a b
    rw [String.toList_append, String.toList_append, List.append_assoc]
    rfl
  rw [← String.toList_inj, hcut, hcut, append_separator_inj (not_mem_toString_of_not_isDigit hdash)
    (not_mem_toString_of_not_isDigit hdash), String.toList_inj, String.toList_inj,
    toString_nat_inj, toString_nat_inj]

theorem qualifiedName_tree (ns : String) (base : TreeBase) (lo hi : Nat) :
    (Symbol.tree base lo hi).qualifiedName ns =
      base.qualifiedName ns ++ ("/" ++ (toString lo ++ "-" ++ toString hi)) := by
  simp only [Symbol.qualifiedName, String.append_assoc]

/-- The names of the nodes of one tree tell their ends. -/
theorem tree_name_inj {ns : String} {base : TreeBase} {lo hi lo' hi' : Nat} :
    (Symbol.tree base lo hi).qualifiedName ns = (Symbol.tree base lo' hi').qualifiedName ns ↔
      lo = lo' ∧ hi = hi' := by
  rw [qualifiedName_tree, qualifiedName_tree, ← range_text_inj, ← String.toList_inj,
    ← String.toList_inj]
  simp only [String.toList_append, List.append_cancel_left_eq]

end WasmPack
