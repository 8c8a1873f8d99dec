/-
  WasmPack.Proofs.Compile.Names

  The names of a module's own sequences are different from each other.  A name
  behind the internal prefix is read back from its parts between slashes; no
  other sequence of the module has the prefix, unless the module exports a
  function under such a name.
-/
import WasmPack.Proofs.Compile.Sequences
import WasmPack.Proofs.Execution.Dispatch

namespace WasmPack

/-! ## Parts of names -/

/-- The parts between slashes in an internal name; other symbols have none. -/
def Symbol.segments : Symbol → List String
  | func i => ["funcs", toString i.toNat]
  | fragment i => ["func_pool", toString i.toNat]
  | memory i op => ["mems", toString i.toNat, op.name]
  | swapOutAll => ["mems", "swap_out"]
  | global i op => ["globals", toString i.toNat, op.name]
  | tree (.swapIn i) lo hi => ["mems", toString i.toNat, "swap_in", toString lo ++ "-" ++ toString hi]
  | tree (.swapOut i) lo hi =>
    ["mems", toString i.toNat, "swap_out", toString lo ++ "-" ++ toString hi]
  | _ => []

/-- The symbol has an internal name. -/
def Symbol.IsInternal (s : Symbol) : Prop := s.segments ≠ []

/-- Parts one behind the other, each with a slash behind it. -/
def slashed (segments : List String) : List Char := segments.flatMap fun s => s.toList ++ ['/']

/-- Parts without slashes are told apart. -/
theorem slashed_inj {xs ys : List String} (hx : ∀ x ∈ xs, '/' ∉ x.toList)
    (hy : ∀ y ∈ ys, '/' ∉ y.toList) : slashed xs = slashed ys ↔ xs = ys := by
  induction xs generalizing ys with
  | nil =>
    cases ys with
    | nil => simp
    | cons y ys => simp [slashed]
  | cons x xs ih =>
    cases ys with
    | nil => simp [slashed]
    | cons y ys =>
      have hcons : ∀ z zs, slashed (z :: zs) = z.toList ++ '/' :: slashed zs := by
        intro z zs
        simp [slashed]
      rw [hcons, hcons, append_separator_inj (hx x List.mem_cons_self) (hy y List.mem_cons_self),
        String.toList_inj, ih (fun z hz => hx z (List.mem_cons_of_mem x hz))
          fun z hz => hy z (List.mem_cons_of_mem y hz), List.cons.injEq]

theorem slash_not_mem_range (lo hi : Nat) :
    '/' ∉ (toString lo ++ "-" ++ toString hi : String).toList := by
  have hslash : '/'.isDigit = false := rfl
  have hdash : '/' ∉ "-".toList := by decide
  rw [String.toList_append, String.toList_append, List.mem_append, List.mem_append]
  rintro ((h | h) | h)
  · exact not_mem_toString_of_not_isDigit hslash h
  · exact hdash h
  · exact not_mem_toString_of_not_isDigit hslash h

/-- No part has a slash in it. -/
theorem Symbol.slash_not_mem_segments (s : Symbol) : ∀ x ∈ s.segments, '/' ∉ x.toList := by
  have hnat : ∀ n : Nat, '/' ∉ (toString n : String).toList := fun n =>
    not_mem_toString_of_not_isDigit rfl
  have hmemory : ∀ op : MemoryOp, '/' ∉ op.name.toList := by
    intro op
    cases op <;> decide
  have hglobal : ∀ op : GlobalOp, '/' ∉ op.name.toList := by
    intro op
    cases op <;> decide
  have hnil : ∀ x ∈ ([] : List String), '/' ∉ x.toList := fun x hx => nomatch hx
  cases s with
  | func i => exact List.forall_mem_cons.2 ⟨by decide, List.forall_mem_cons.2 ⟨hnat _, hnil⟩⟩
  | fragment i => exact List.forall_mem_cons.2 ⟨by decide, List.forall_mem_cons.2 ⟨hnat _, hnil⟩⟩
  | memory i op =>
    exact List.forall_mem_cons.2 ⟨by decide, List.forall_mem_cons.2 ⟨hnat _,
      List.forall_mem_cons.2 ⟨hmemory op, hnil⟩⟩⟩
  | swapOutAll =>
    exact List.forall_mem_cons.2 ⟨by decide, List.forall_mem_cons.2 ⟨by decide, hnil⟩⟩
  | global i op =>
    exact List.forall_mem_cons.2 ⟨by decide, List.forall_mem_cons.2 ⟨hnat _,
      List.forall_mem_cons.2 ⟨hglobal op, hnil⟩⟩⟩
  | tree base lo hi =>
    cases base with
    | swapIn i =>
      exact List.forall_mem_cons.2 ⟨by decide, List.forall_mem_cons.2 ⟨hnat _,
        List.forall_mem_cons.2 ⟨by decide, List.forall_mem_cons.2 ⟨slash_not_mem_range lo hi,
          hnil⟩⟩⟩⟩
    | swapOut i =>
      exact List.forall_mem_cons.2 ⟨by decide, List.forall_mem_cons.2 ⟨hnat _,
        List.forall_mem_cons.2 ⟨by decide, List.forall_mem_cons.2 ⟨slash_not_mem_range lo hi,
          hnil⟩⟩⟩⟩
    | byteGet => exact hnil
    | byteSet => exact hnil
  | _ => exact hnil

theorem MemoryOp.name_inj {op op' : MemoryOp} : op.name = op'.name ↔ op = op' := by
  constructor
  · cases op <;> cases op' <;> first | exact fun _ => rfl | exact fun h => absurd h (by decide)
  · rintro rfl
    rfl

theorem GlobalOp.name_inj {op op' : GlobalOp} : op.name = op'.name ↔ op = op' := by
  constructor
  · cases op <;> cases op' <;> first | exact fun _ => rfl | exact fun h => absurd h (by decide)
  · rintro rfl
    rfl

/-- A symbol with an internal name is known by its parts. -/
theorem Symbol.segments_inj {s t : Symbol} (hs : s.IsInternal) (h : s.segments = t.segments) :
    s = t := by
  have hnat : ∀ {i j : UInt32}, (toString i.toNat : String) = toString j.toNat → i = j := fun h =>
    UInt32.toNat_inj.1 (toString_nat_inj.1 h)
  -- The first part and the number of parts tell the constructors apart.
  rcases s with i | i | ⟨i, op⟩ | _ | ⟨i, op⟩ | ⟨i | i | _ | _, lo, hi⟩ | _ | _ | _ | _ | _ | _ | _ | _ <;>
    first
    | exact absurd rfl hs
    | rcases t with j | j | ⟨j, op'⟩ | _ | ⟨j, op'⟩ | ⟨j | j | _ | _, lo', hi'⟩ | _ | _ | _ | _ | _ |
        _ | _ | _ <;>
      unfold segments at h <;>
      simp only [List.cons.injEq, and_true, true_and, reduceCtorEq, and_false,
        false_and, String.reduceEq] at h
  case func.func => rw [hnat h]
  case fragment.fragment => rw [hnat h]
  case memory.memory => rw [hnat h.1, MemoryOp.name_inj.1 h.2]
  case swapOutAll.swapOutAll => rfl
  case global.global => rw [hnat h.1, GlobalOp.name_inj.1 h.2]
  case tree.swapIn.tree.swapIn =>
    obtain ⟨hlo, hhi⟩ := range_text_inj.1 h.2
    rw [hnat h.1, hlo, hhi]
  case tree.swapOut.tree.swapOut =>
    obtain ⟨hlo, hhi⟩ := range_text_inj.1 h.2
    rw [hnat h.1, hlo, hhi]

/-! ## Names behind the prefix -/

/-- What internal names begin with, behind the namespace. -/
def internalPrefix : List Char := "__internal/".toList

theorem internal_append (ns path rest : String) :
    internal ns path ++ rest = internal ns (path ++ rest) := String.append_assoc

theorem toList_internal (ns path : String) :
    (internal ns path).toList = ns.toList ++ ':' :: (internalPrefix ++ path.toList) := by
  have hcolon : ":__internal/".toList = ':' :: internalPrefix := by decide
  rw [internal, String.toList_append, String.toList_append, hcolon]
  simp

/-- An internal name is made of its parts. -/
theorem Symbol.exists_internal {s : Symbol} (hs : s.IsInternal) (ns : String) :
    ∃ path, s.qualifiedName ns = internal ns path ∧ path.toList ++ ['/'] = slashed s.segments := by
  -- Each path begins with a literal that ends in a slash: the literal is split there, and what is
  -- left is the number or the operation.
  have hfuncs : "funcs/".toList = "funcs".toList ++ ['/'] := by decide
  have hpool : "func_pool/".toList = "func_pool".toList ++ ['/'] := by decide
  have hmems : "mems/".toList = "mems".toList ++ ['/'] := by decide
  have hglobals : "globals/".toList = "globals".toList ++ ['/'] := by decide
  have hslash : "/".toList = ['/'] := by decide
  have hin : "/swap_in".toList = '/' :: "swap_in".toList := by decide
  have hout : "/swap_out".toList = '/' :: "swap_out".toList := by decide
  have hall : "mems/swap_out".toList = "mems".toList ++ '/' :: "swap_out".toList := by decide
  cases s with
  | func i =>
    refine ⟨_, rfl, ?_⟩
    show _ = slashed [_, _]
    simp [slashed, hfuncs]
  | fragment i =>
    refine ⟨_, rfl, ?_⟩
    show _ = slashed [_, _]
    simp [slashed, hpool]
  | memory i op =>
    refine ⟨_, rfl, ?_⟩
    show _ = slashed [_, _, _]
    simp [slashed, hmems, hslash]
  | swapOutAll =>
    refine ⟨_, rfl, ?_⟩
    show _ = slashed [_, _]
    simp [slashed, hall]
  | global i op =>
    refine ⟨_, rfl, ?_⟩
    show _ = slashed [_, _, _]
    simp [slashed, hglobals, hslash]
  | tree base lo hi =>
    rw [qualifiedName_tree]
    cases base with
    | swapIn i =>
      refine ⟨_, internal_append ns _ _, ?_⟩
      show _ = slashed [_, _, _, _]
      simp [slashed, hmems, hslash, hin]
    | swapOut i =>
      refine ⟨_, internal_append ns _ _, ?_⟩
      show _ = slashed [_, _, _, _]
      simp [slashed, hmems, hslash, hout]
    | byteGet => exact absurd rfl hs
    | byteSet => exact absurd rfl hs
  | _ => exact absurd rfl hs

/-- Different symbols with internal names have different names. -/
theorem Symbol.internalName_inj {s t : Symbol} (hs : s.IsInternal) (ht : t.IsInternal)
    {ns : String} (h : s.qualifiedName ns = t.qualifiedName ns) : s = t := by
  obtain ⟨p, hp, hps⟩ := exists_internal hs ns
  obtain ⟨q, hq, hqs⟩ := exists_internal ht ns
  rw [hp, hq, ← String.toList_inj, toList_internal, toList_internal, List.append_cancel_left_eq,
    List.cons.injEq, List.append_cancel_left_eq] at h
  rw [h.2, hqs, slashed_inj t.slash_not_mem_segments s.slash_not_mem_segments] at hps
  exact segments_inj hs hps.symm

/-! ## Names that other modules see -/

/-- Texts that begin in different ways are different. -/
theorem append_ne_append {n : Nat} {u v x y : List Char} (hu : n ≤ u.length) (hv : n ≤ v.length)
    (hne : u.take n ≠ v.take n) : u ++ x ≠ v ++ y := by
  intro h
  have htake := congrArg (List.take n) h
  rw [List.take_append_of_le_length hu, List.take_append_of_le_length hv] at htake
  exact hne htake

namespace Symbol

/-- The path of a name that other modules may see, behind the namespace. -/
def publicPath : Symbol → List Char
  | exportFunc name => name.toList
  | exportMemory name op => "__mems/".toList ++ (name.toList ++ '/' :: op.name.toList)
  | exportGlobal name op => "__globals/".toList ++ (name.toList ++ '/' :: op.name.toList)
  | _ => "__init".toList

variable {s t : Symbol} {ns name : String}

/-- A symbol that is not internal is that of an exported function, memory or global, or of what
    prepares the module. -/
theorem public_cases (hs : s.IsOwn) (hi : ¬s.IsInternal) : (∃ name, s = exportFunc name) ∨
    (∃ name op, s = exportMemory name op) ∨ (∃ name op, s = exportGlobal name op) ∨ s = init := by
  have hinternal : ∀ {x : String} {xs : List String}, s.segments = x :: xs → s.IsInternal :=
    fun h hnil => nomatch h.symm.trans hnil
  rcases s with _ | _ | _ | _ | _ | ⟨_ | _ | _ | _, _, _⟩ | name | ⟨name, op⟩ | ⟨name, op⟩ | _ | _ |
      _ | _ | _
  case exportFunc => exact .inl ⟨name, rfl⟩
  case exportMemory => exact .inr (.inl ⟨name, op, rfl⟩)
  case exportGlobal => exact .inr (.inr (.inl ⟨name, op, rfl⟩))
  case init => exact .inr (.inr (.inr rfl))
  all_goals first | exact hs.elim | exact absurd (hinternal rfl) hi

/-- A name that is not internal is the namespace, a colon, and the path. -/
theorem toList_publicName (hs : s.IsOwn) (hi : ¬s.IsInternal) :
    (s.qualifiedName ns).toList = ns.toList ++ ':' :: s.publicPath := by
  have hmems : ":__mems/".toList = ':' :: "__mems/".toList := by decide
  have hglobals : ":__globals/".toList = ':' :: "__globals/".toList := by decide
  have hinit : ":__init".toList = ':' :: "__init".toList := by decide
  have hcolon : ":".toList = [':'] := by decide
  have hslash : "/".toList = ['/'] := by decide
  obtain ⟨name, rfl⟩ | ⟨name, op, rfl⟩ | ⟨name, op, rfl⟩ | rfl := public_cases hs hi
  · have hname : (exportFunc name).qualifiedName ns = ns ++ ":" ++ name := rfl
    rw [hname, String.toList_append, String.toList_append, hcolon, List.append_assoc]
    rfl
  · have hname : (exportMemory name op).qualifiedName ns =
        ns ++ ":__mems/" ++ name ++ "/" ++ op.name := rfl
    rw [hname]
    simp only [String.toList_append, hmems, hslash, List.append_assoc, List.cons_append,
      List.nil_append]
    rfl
  · have hname : (exportGlobal name op).qualifiedName ns =
        ns ++ ":__globals/" ++ name ++ "/" ++ op.name := rfl
    rw [hname]
    simp only [String.toList_append, hglobals, hslash, List.append_assoc, List.cons_append,
      List.nil_append]
    rfl
  · have hname : init.qualifiedName ns = ns ++ ":__init" := rfl
    rw [hname, String.toList_append, hinit]
    rfl

end Symbol

/-- A module exports no function under a name that looks internal. -/
def NoInternalExports (m : Wasm.Module) : Prop :=
  ∀ e ∈ m.exports, e.kind = .func → ¬internalPrefix <+: e.name.toList

/-- A module exports no function under the name of what prepares it. -/
def NoInitExport (m : Wasm.Module) : Prop :=
  ∀ e ∈ m.exports, e.kind = .func → e.name ≠ "__init"

/-- The other names of a module do not look internal. -/
theorem Symbol.ne_internalName {s t : Symbol} (hs : s.IsInternal) (ht : t.IsOwn)
    (hti : ¬t.IsInternal) (hfree : ∀ name, t = .exportFunc name → ¬internalPrefix <+: name.toList)
    (ns : String) : s.qualifiedName ns ≠ t.qualifiedName ns := by
  intro h
  obtain ⟨path, hpath, -⟩ := exists_internal hs ns
  -- Behind the namespace both names have a path, and one of the paths begins with the prefix.
  rw [hpath, ← String.toList_inj, toList_internal, toList_publicName ht hti,
    List.append_cancel_left_eq, List.cons.injEq] at h
  obtain ⟨-, h⟩ := h
  obtain ⟨name, rfl⟩ | ⟨name, op, rfl⟩ | ⟨name, op, rfl⟩ | rfl := public_cases ht hti
  · exact hfree name rfl ⟨path.toList, h⟩
  · exact append_ne_append (n := 5) (by decide) (by decide) (by decide) h
  · exact append_ne_append (n := 5) (by decide) (by decide) (by decide) h
  · exact append_ne_append (n := 5) (y := []) (by decide) (by decide) (by decide)
      (h.trans (List.append_nil _).symm)

namespace Compile

open Wasm

variable {ns : String} {m : Module} {p : Program} {s t : Sequence} {i : UInt32}
  {entry : MemoryEntry}

/-! ## Sequences of memories -/

/-- The symbols of the sequences of a memory. -/
def IsOfMemory (i : UInt32) : Symbol → Prop
  | .memory j _ => j = i
  | .tree (.swapIn j) _ _ => j = i
  | .tree (.swapOut j) _ _ => j = i
  | _ => False

theorem IsOfMemory.isInternal {s : Symbol} (h : IsOfMemory i s) : s.IsInternal := by
  rcases s with _ | _ | ⟨j, op⟩ | _ | _ | ⟨j | j | _ | _, lo, hi⟩ | _ | _ | _ | _ | _ | _ | _ | _ <;>
    first
    | exact h.elim
    | exact List.cons_ne_nil _ _

/-- The sequences of a memory have its symbols, each for one sequence. -/
structure OneEach (i : UInt32) (ss : List Sequence) : Prop where
  isOfMemory : ∀ s ∈ ss, IsOfMemory i s.symbol
  unique : ∀ s ∈ ss, ∀ t ∈ ss, s.symbol = t.symbol → s = t

/-- The sequences of a tree, one for each symbol. -/
theorem tree_unique {tree : DispatchTree} {leaf : Nat → Command} {span : Span} (hs : 0 < span.size)
    (h : s ∈ tree.sequences leaf span) (h' : t ∈ tree.sequences leaf span)
    (heq : s.symbol = t.symbol) : s = t := by
  obtain ⟨part, hpart, rfl⟩ := DispatchTree.eq_of_mem_sequences hs h
  obtain ⟨part', hpart', rfl⟩ := DispatchTree.eq_of_mem_sequences hs h'
  have hends : part.lo = part'.lo ∧ part.last = part'.last := by
    simpa [DispatchTree.symbol] using heq
  rw [DispatchTree.span_eq_of_ends hpart hpart' hends.1 hends.2]

/-- The symbols of a tree of a memory. -/
theorem tree_symbol {tree : DispatchTree} {leaf : Nat → Command} {span : Span} (hs : 0 < span.size)
    (h : s ∈ tree.sequences leaf span) : ∃ lo hi, s.symbol = .tree tree.base lo hi := by
  obtain ⟨part, -, rfl⟩ := DispatchTree.eq_of_mem_sequences hs h
  exact ⟨_, _, rfl⟩

/-- The commands of an operation on a memory that may have pages. -/
def pagedOperation (ns : String) (i max : UInt32) : MemoryOp → List Command
  | .swapIn => swapInCommands ns i max
  | .swapOut => swapOutCommands i max
  | .get => accessCommands i .byteGet
  | .set => accessCommands i .byteSet
  | .size => sizeCommands i
  | .grow => growCommands i max
  | .growUnchecked => growUncheckedCommands i
  | .growLoop => growLoopCommands i

/-- The sequences of a memory that may have pages are those of its trees and its operations. -/
theorem mem_paged {max : UInt32} (h : s ∈ pagedSequences ns i max) :
    s ∈ (swapInTree i).sequences (fun page => .setFrom windowData (pagePath i page))
        (pageSpan max) ∨
      s ∈ (swapOutTree i).sequences (fun page => .setFrom (pagePath i page) windowData)
        (pageSpan max) ∨
      ∃ op, s = ⟨.memory i op, pagedOperation ns i max op⟩ := by
  obtain h | h := List.mem_append.1 h
  · obtain h | h := List.mem_append.1 h
    · exact .inl h
    · exact .inr (.inl h)
  · refine .inr (.inr ?_)
    simp only [List.mem_cons, List.not_mem_nil, or_false] at h
    rcases h with rfl | rfl | rfl | rfl | rfl | rfl | rfl | rfl <;> exact ⟨_, rfl⟩

theorem oneEach_paged {max : UInt32} (hmax : max ≠ 0) : OneEach i (pagedSequences ns i max) := by
  have hsize : 0 < (pageSpan max).size := by
    show 0 < max.toNat
    exact Nat.pos_of_ne_zero fun hzero => hmax (UInt32.toNat_inj.1 hzero)
  refine ⟨fun s hs => ?_, fun s hs t ht heq => ?_⟩
  · obtain h | h | ⟨op, rfl⟩ := mem_paged hs
    · obtain ⟨lo, hi, hsym⟩ := tree_symbol hsize h
      rw [hsym]
      rfl
    · obtain ⟨lo, hi, hsym⟩ := tree_symbol hsize h
      rw [hsym]
      rfl
    · rfl
  · -- Which of the three a sequence comes from can be seen from its symbol.
    obtain h | h | ⟨op, rfl⟩ := mem_paged hs <;> obtain h' | h' | ⟨op', rfl⟩ := mem_paged ht
    · exact tree_unique hsize h h' heq
    · obtain ⟨lo, hi, hsym⟩ := tree_symbol hsize h
      obtain ⟨lo', hi', hsym'⟩ := tree_symbol hsize h'
      cases hsym.symm.trans (heq.trans hsym')
    · obtain ⟨lo, hi, hsym⟩ := tree_symbol hsize h
      cases hsym.symm.trans heq
    · obtain ⟨lo, hi, hsym⟩ := tree_symbol hsize h
      obtain ⟨lo', hi', hsym'⟩ := tree_symbol hsize h'
      cases hsym.symm.trans (heq.trans hsym')
    · exact tree_unique hsize h h' heq
    · obtain ⟨lo, hi, hsym⟩ := tree_symbol hsize h
      cases hsym.symm.trans heq
    · obtain ⟨lo, hi, hsym⟩ := tree_symbol hsize h'
      cases heq.trans hsym
    · obtain ⟨lo, hi, hsym⟩ := tree_symbol hsize h'
      cases heq.trans hsym
    · obtain rfl : op = op' := by simpa using heq
      rfl

/-- Sequences that are only operations, one for each. -/
theorem oneEach_of_operations {ss : List Sequence} (commands : MemoryOp → List Command)
    (h : ∀ s ∈ ss, ∃ op, s = ⟨.memory i op, commands op⟩) : OneEach i ss := by
  refine ⟨fun s hs => ?_, fun s hs t ht heq => ?_⟩
  · obtain ⟨op, rfl⟩ := h s hs
    rfl
  · obtain ⟨op, rfl⟩ := h s hs
    obtain ⟨op', rfl⟩ := h t ht
    obtain rfl : op = op' := by simpa using heq
    rfl

/-- The commands of an operation on a memory that can never have a page. -/
def pagelessOperation : MemoryOp → List Command
  | .get => [.setScore .a 0]
  | .size => [.append .stack (.int 0)]
  | .grow => [.load .a (.operand (-1)),
      (Command.setData (.operand (-1)) (.int (-1))).unlessIn .a (.exact 0)]
  | _ => []

theorem oneEach_memory : OneEach i (memorySequences ns i entry) := by
  cases entry with
  | imported source =>
    refine oneEach_of_operations (fun op => [.call (.importMemory source op)]) fun s hs => ?_
    obtain ⟨op, -, rfl⟩ := List.mem_map.1 hs
    exact ⟨op, rfl⟩
  | defined limits =>
    simp only [memorySequences]
    split
    · refine oneEach_of_operations pagelessOperation fun s hs => ?_
      simp only [pagelessSequences, List.mem_cons, List.not_mem_nil, or_false] at hs
      rcases hs with rfl | rfl | rfl | rfl <;> exact ⟨_, rfl⟩
    · rename_i hmax
      exact oneEach_paged hmax

/-! ## Sequences of a module -/

theorem not_isOfMemory_of_isPublic (h : IsPublic s) : ¬IsOfMemory i s.symbol := by
  obtain ⟨⟨_, _, h⟩ | ⟨_, h⟩ | ⟨_, _, h⟩ | ⟨_, _, h⟩, -⟩ := h <;>
    (rw [h]; exact id)

theorem toNat_ofNat_of_lt {n : Nat} (h : n < 2 ^ 31) : (UInt32.ofNat n).toNat = n :=
  UInt32.toNat_ofNat_of_lt' (by simp only [UInt32.size]; omega)

namespace Compiled

variable (c : Compiled ns m p)

/-- The sequences of a memory are there. -/
theorem mem_memorySequences {n : Nat} (hn : c.spaces.memories[n]? = some entry)
    (h : s ∈ memorySequences ns (UInt32.ofNat n) entry) : s ∈ p.sequences := by
  have hall : s ∈ allMemorySequences ns c.spaces := by
    refine List.mem_flatMap.2 ⟨(entry, n), ?_, h⟩
    rw [List.mem_zipIdx_iff_getElem?]
    simpa using hn
  rw [c.program]
  simp only [List.mem_append]
  exact .inl (.inl (.inl (.inl (.inl (.inr hall)))))

theorem mem_swapOutAll (h : s ∈ swapOutSequences ns c.spaces) : s ∈ p.sequences := by
  rw [c.program]
  simp only [List.mem_append]
  exact .inl (.inl (.inl (.inl (.inr h))))

include c

/-- The symbols of a module's sequences are its own. -/
theorem isOwn (h : s ∈ p.sequences) : s.symbol.IsOwn := by
  have hpublic : ∀ {s : Sequence}, IsPublic s → s.symbol.IsOwn := by
    rintro s ⟨⟨_, _, h⟩ | ⟨_, h⟩ | ⟨_, _, h⟩ | ⟨_, _, h⟩, -⟩ <;> (rw [h]; exact trivial)
  cases c.kind h with
  | function h =>
    obtain ⟨⟨i, h⟩, -⟩ := h
    rw [h]
    exact trivial
  | memory entry i hi h =>
    have hmem := oneEach_memory.isOfMemory s h
    rcases hs : s.symbol with _ | _ | ⟨j, op⟩ | _ | _ | ⟨j | j | _ | _, lo, hi⟩ | _ | _ | _ | _ | _ |
      _ | _ | _ <;> rw [hs] at hmem <;> first | exact trivial | exact hmem.elim
  | swapOutAll h =>
    rw [h]
    exact trivial
  | global h => exact hpublic (isPublic_of_mem_globals h)
  | exported h => exact hpublic (isPublic_of_mem_exports h)
  | fragment i hs h =>
    rw [hs]
    exact trivial
  | init rest h hinit hs =>
    rw [hs]
    exact trivial

/-- A sequence with the symbol of one of a memory is that one. -/
theorem eq_of_memory_symbol {n : Nat} (hn : c.spaces.memories[n]? = some entry) (hlt : n < 2 ^ 31)
    (hsize : c.spaces.memories.size ≤ 2 ^ 31) (hs : s ∈ memorySequences ns (UInt32.ofNat n) entry)
    (ht : t ∈ p.sequences) (heq : s.symbol = t.symbol) : s = t := by
  have hmem := oneEach_memory.isOfMemory s hs
  rw [heq] at hmem
  cases c.kind ht with
  | function h =>
    obtain ⟨⟨i, h⟩, -⟩ := h
    rw [h] at hmem
    exact hmem.elim
  | memory entry' k hk h =>
    have hmem' := oneEach_memory.isOfMemory t h
    -- Whatever the symbol is, it carries the number of its memory, which both sequences agree on.
    have hindex : UInt32.ofNat k = UInt32.ofNat n := by
      rcases hs : t.symbol with _ | _ | ⟨j, op⟩ | _ | _ | ⟨j | j | _ | _, lo, hi⟩ | _ | _ | _ | _ |
        _ | _ | _ | _ <;> rw [hs] at hmem hmem' <;>
        first | exact hmem.elim | exact hmem'.symm.trans hmem
    have hklt : k < c.spaces.memories.size := by
      obtain ⟨hlt, -⟩ := Array.getElem?_eq_some_iff.1 hk
      exact hlt
    have hkn := congrArg UInt32.toNat hindex
    rw [toNat_ofNat_of_lt (by omega), toNat_ofNat_of_lt hlt] at hkn
    subst hkn
    cases hn.symm.trans hk
    exact oneEach_memory.unique s hs t h heq
  | swapOutAll h =>
    rw [h] at hmem
    exact hmem.elim
  | global h => exact absurd hmem (not_isOfMemory_of_isPublic (isPublic_of_mem_globals h))
  | exported h => exact absurd hmem (not_isOfMemory_of_isPublic (isPublic_of_mem_exports h))
  | fragment i hs h =>
    rw [hs] at hmem
    exact hmem.elim
  | init rest h hinit hs =>
    rw [hs] at hmem
    exact hmem.elim

/-- The sequence that stores the window is the only one with its symbol. -/
theorem eq_of_swapOutAll_symbol (ht : t ∈ p.sequences) (heq : t.symbol = .swapOutAll) :
    t = ⟨.swapOutAll, swapOutAllCommands ns c.spaces.memories⟩ := by
  have hpublic : ¬IsPublic t := by
    rintro ⟨⟨_, _, h⟩ | ⟨_, h⟩ | ⟨_, _, h⟩ | ⟨_, _, h⟩, -⟩ <;> cases heq.symm.trans h
  cases c.kind ht with
  | function h =>
    obtain ⟨⟨i, h⟩, -⟩ := h
    cases heq.symm.trans h
  | memory entry k hk h =>
    have hmem := oneEach_memory.isOfMemory t h
    rw [heq] at hmem
    exact hmem.elim
  | swapOutAll h => exact h
  | global h => exact absurd (isPublic_of_mem_globals h) hpublic
  | exported h => exact absurd (isPublic_of_mem_exports h) hpublic
  | fragment i hs h => cases heq.symm.trans hs
  | init rest h hinit hs =>
    rw [hs] at heq
    cases heq

/-- A sequence that is not internal and does not prepare the module is that of an export. -/
theorem mem_exportSequences (ht : t ∈ p.sequences) (hi : ¬t.symbol.IsInternal)
    (hinit : t.symbol ≠ .init) : t ∈ exportSequences c.spaces m := by
  have hinternal : ∀ {x : String} {xs : List String}, t.symbol.segments = x :: xs → False :=
    fun h => hi fun hnil => nomatch h.symm.trans hnil
  cases c.kind ht with
  | function h hmem =>
    obtain ⟨⟨i, h⟩, -⟩ := h
    exact (hinternal (congrArg Symbol.segments h)).elim
  | memory entry k hk h => exact absurd (oneEach_memory.isOfMemory t h).isInternal hi
  | swapOutAll h =>
    rw [h] at hi
    exact absurd (List.cons_ne_nil _ _) hi
  | global h =>
    obtain ⟨⟨entry, i⟩, -, h⟩ := List.mem_flatMap.1 h
    cases entry with
    | defined type init =>
      obtain rfl | h := List.mem_cons.1 h
      · exact absurd (List.cons_ne_nil _ _) hi
      · rw [List.mem_singleton.1 h] at hi
        exact absurd (List.cons_ne_nil _ _) hi
    | imported type source =>
      obtain ⟨op, -, rfl⟩ := List.mem_map.1 h
      exact absurd (List.cons_ne_nil _ _) hi
  | exported h => exact h
  | fragment i hs h => exact (hinternal (congrArg Symbol.segments hs)).elim
  | init rest h _ hs =>
    rw [hs] at hinit
    exact absurd rfl hinit

/-- What such a sequence calls. -/
theorem export_cases (ht : t ∈ p.sequences) (hi : ¬t.symbol.IsInternal)
    (hinit : t.symbol ≠ .init) :
    (∃ e ∈ m.exports, e.kind = .func ∧
      t = ⟨.exportFunc e.name, callSequence (.func e.index) (paramCount c.spaces e.index)⟩) ∨
    (∃ name op i, t = ⟨.exportMemory name op, [.call (.memory i op)]⟩) ∨
      ∃ name op i, t = ⟨.exportGlobal name op, [.call (.global i op)]⟩ := by
  obtain h | h := List.mem_append.1 (c.mem_exportSequences ht hi hinit)
  · obtain h | h := List.mem_append.1 h
    · obtain ⟨e, he, h⟩ := List.mem_flatMap.1 h
      obtain ⟨hmem, hkind⟩ := List.mem_filter.1 he
      exact .inl ⟨e, hmem, of_decide_eq_true hkind, List.mem_singleton.1 h⟩
    · obtain ⟨e, -, h⟩ := List.mem_flatMap.1 h
      obtain ⟨op, -, rfl⟩ := List.mem_map.1 h
      exact .inr (.inl ⟨e.name, op, e.index, rfl⟩)
  · obtain ⟨e, -, h⟩ := List.mem_flatMap.1 h
    obtain ⟨op, -, rfl⟩ := List.mem_map.1 h
    exact .inr (.inr ⟨e.name, op, e.index, rfl⟩)

/-- The sequence of an exported function comes from an export of its name, and calls the
    function. -/
theorem exists_export {name : String} (ht : t ∈ p.sequences) (heq : t.symbol = .exportFunc name) :
    ∃ e ∈ m.exports, e.kind = .func ∧ e.name = name ∧
      t.commands = callSequence (.func e.index) (paramCount c.spaces e.index) := by
  obtain ⟨e, he, hkind, rfl⟩ | ⟨_, _, _, rfl⟩ | ⟨_, _, _, rfl⟩ :=
    c.export_cases ht (by rw [heq]; exact fun h => h rfl) (by rw [heq]; exact fun h => nomatch h) <;>
    cases heq
  exact ⟨e, he, hkind, rfl, rfl⟩

/-- An operation on an exported memory is passed on to a memory of the module. -/
theorem exists_exportMemory {name : String} {op : MemoryOp} (ht : t ∈ p.sequences)
    (heq : t.symbol = .exportMemory name op) : ∃ i, t.commands = [.call (.memory i op)] := by
  obtain ⟨_, _, _, rfl⟩ | ⟨_, _, i, rfl⟩ | ⟨_, _, _, rfl⟩ :=
    c.export_cases ht (by rw [heq]; exact fun h => h rfl) (by rw [heq]; exact fun h => nomatch h) <;>
    cases heq
  exact ⟨i, rfl⟩

/-- An operation on an exported global is passed on to a global of the module. -/
theorem exists_exportGlobal {name : String} {op : GlobalOp} (ht : t ∈ p.sequences)
    (heq : t.symbol = .exportGlobal name op) : ∃ i, t.commands = [.call (.global i op)] := by
  obtain ⟨_, _, _, rfl⟩ | ⟨_, _, _, rfl⟩ | ⟨_, _, i, rfl⟩ :=
    c.export_cases ht (by rw [heq]; exact fun h => h rfl) (by rw [heq]; exact fun h => nomatch h) <;>
    cases heq
  exact ⟨i, rfl⟩

/-- A sequence with the symbol of a function is that of one. -/
theorem mem_functions {j : UInt32} (ht : t ∈ p.sequences) (heq : t.symbol = .func j) :
    t ∈ c.functions := by
  have hpublic : ¬IsPublic t := by
    rintro ⟨⟨_, _, h⟩ | ⟨_, h⟩ | ⟨_, _, h⟩ | ⟨_, _, h⟩, -⟩ <;> cases heq.symm.trans h
  cases c.kind ht with
  | function h hmem => exact hmem
  | memory entry k hk h =>
    have hmem := oneEach_memory.isOfMemory t h
    rw [heq] at hmem
    exact hmem.elim
  | swapOutAll h =>
    rw [h] at heq
    cases heq
  | global h => exact absurd (isPublic_of_mem_globals h) hpublic
  | exported h => exact absurd (isPublic_of_mem_exports h) hpublic
  | fragment i hs h => cases heq.symm.trans hs
  | init rest h hinit hs =>
    rw [hs] at heq
    cases heq

/-- A sequence with an internal name has the symbol that the name is made for, or is that of an
    exported function. -/
theorem named_internal (ht : t ∈ p.sequences) {q : Symbol} (hq : q.IsInternal)
    (h : p.nameOf t = q.qualifiedName ns) :
    t.symbol = q ∨ ∃ name, t.symbol = .exportFunc name := by
  rw [Program.nameOf, c.ns_eq] at h
  by_cases hi : t.symbol.IsInternal
  · exact .inl (Symbol.internalName_inj hi hq h)
  · by_cases hexported : ∃ name, t.symbol = .exportFunc name
    · exact .inr hexported
    · exact absurd h.symm (Symbol.ne_internalName hq (c.isOwn ht) hi
        (fun name hname => absurd ⟨name, hname⟩ hexported) ns)

/-- A sequence with an internal name shares it only with sequences of the same symbol, if no
    function is exported under a name that looks internal. -/
theorem symbol_eq_of_name_eq (hfree : NoInternalExports m) (ht : t ∈ p.sequences) {q : Symbol}
    (hq : q.IsInternal) (h : p.nameOf t = q.qualifiedName ns) : t.symbol = q := by
  rw [Program.nameOf, c.ns_eq] at h
  by_cases hi : t.symbol.IsInternal
  · exact Symbol.internalName_inj hi hq h
  · refine absurd h.symm (Symbol.ne_internalName hq (c.isOwn ht) hi (fun name hname => ?_) ns)
    obtain ⟨e, he, hkind, rfl, -⟩ := c.exists_export ht hname
    exact hfree e he hkind

/-! ## What prepares a module -/

/-- The sequence that prepares the module is the only one with its symbol. -/
theorem eq_of_init_symbol (ht : t ∈ p.sequences) (heq : t.symbol = .init) :
    t = ⟨.init, c.init⟩ := by
  have hpublic : ¬IsPublic t := by
    rintro ⟨⟨_, _, h⟩ | ⟨_, h⟩ | ⟨_, _, h⟩ | ⟨_, _, h⟩, -⟩ <;> cases heq.symm.trans h
  cases c.kind ht with
  | function h =>
    obtain ⟨⟨i, h⟩, -⟩ := h
    cases heq.symm.trans h
  | memory entry k hk h =>
    have hmem := oneEach_memory.isOfMemory t h
    rw [heq] at hmem
    exact hmem.elim
  | swapOutAll h =>
    rw [h] at heq
    cases heq
  | global h => exact absurd (isPublic_of_mem_globals h) hpublic
  | exported h => exact absurd (isPublic_of_mem_exports h) hpublic
  | fragment i hs h => cases heq.symm.trans hs
  | init rest h hinit hs => exact hs

/-- It shares its name with no other sequence, if no function is exported under that name. -/
theorem symbol_eq_init (hfree : NoInitExport m) (ht : t ∈ p.sequences)
    (h : p.nameOf t = Symbol.init.qualifiedName ns) : t.symbol = .init := by
  rw [Program.nameOf, c.ns_eq] at h
  have hown := c.isOwn ht
  by_cases hint : t.symbol.IsInternal
  · exact absurd h (Symbol.ne_internalName hint (t := .init) trivial
      (fun h => h rfl) (fun _ hname => nomatch hname) ns)
  -- Behind the namespace both names have a path, and that of the other sequence is `__init`.
  rw [← String.toList_inj, Symbol.toList_publicName hown hint,
    Symbol.toList_publicName (s := .init) trivial fun h => h rfl,
    List.append_cancel_left_eq, List.cons.injEq] at h
  obtain ⟨-, h⟩ := h
  have hend : Symbol.publicPath .init = "__init".toList ++ [] := by decide
  obtain ⟨name, hs⟩ | ⟨name, op, hs⟩ | ⟨name, op, hs⟩ | hs := Symbol.public_cases hown hint
  · obtain ⟨e, he, hkind, rfl, -⟩ := c.exists_export ht hs
    rw [hs] at h
    exact absurd (String.toList_inj.1 h) (hfree e he hkind)
  · rw [hs, hend] at h
    exact absurd h (append_ne_append (n := 6) (by decide) (by decide) (by decide))
  · rw [hs, hend] at h
    exact absurd h (append_ne_append (n := 6) (by decide) (by decide) (by decide))
  · exact hs

/-- The sequences in front of the one that prepares the module have other symbols. -/
theorem symbol_ne_init (hs : s ∈ c.functions ++ allMemorySequences ns c.spaces ++
    swapOutSequences ns c.spaces ++ allGlobalSequences c.spaces ++ exportSequences c.spaces m ++
    fragmentSequences c.pool) : s.symbol ≠ .init := by
  have hpublic : IsPublic s → s.symbol ≠ .init := by
    rintro ⟨⟨_, _, h⟩ | ⟨_, h⟩ | ⟨_, _, h⟩ | ⟨_, _, h⟩, -⟩ <;> (rw [h]; exact fun heq => nomatch heq)
  simp only [List.mem_append] at hs
  obtain ((((h | h) | h) | h) | h) | h := hs
  · obtain ⟨⟨i, hi⟩, -⟩ := c.lowered_ordinary.1 s h
    rw [hi]
    exact fun heq => nomatch heq
  · obtain ⟨⟨entry, i⟩, -, h⟩ := List.mem_flatMap.1 h
    intro heq
    have hmem := oneEach_memory.isOfMemory s h
    rw [heq] at hmem
    exact hmem
  · rw [mem_swapOutSequences h]
    exact fun heq => nomatch heq
  · exact hpublic (isPublic_of_mem_globals h)
  · exact hpublic (isPublic_of_mem_exports h)
  · obtain ⟨⟨cs, i⟩, -, rfl⟩ := List.mem_map.1 h
    exact fun heq => nomatch heq

end Compiled

end Compile

end WasmPack
