/-
  WasmPack.Proofs.Compile.Distinct

  When no two sequences of a module share a name.  The symbols of a module's
  sequences are always different.  Their names are too, unless the module exports
  a function under a name that is made for something else: nothing keeps the names
  of exported functions apart from those of the module's other sequences.
-/
import Mathlib.Data.List.Nodup
import WasmPack.Proofs.Compile.Functions
import WasmPack.Proofs.Compile.Names
import WasmPack.Proofs.Execution.Loaded

namespace WasmPack

/-! ## Symbols of a tree -/

namespace DispatchTree

variable {t : DispatchTree} {leaf : Nat → Command} {s : Span} {q : Sequence}

/-- The sequence is that of a node for keys of a span. -/
def Within (t : DispatchTree) (s : Span) (q : Sequence) : Prop :=
  ∃ part : Span, 0 < part.size ∧ s.lo ≤ part.lo ∧ part.lo + part.size ≤ s.lo + s.size ∧
    q.symbol = t.symbol part

theorem Within.mono {part : Span} (h : t.Within part q) (hlo : s.lo ≤ part.lo)
    (hhi : part.lo + part.size ≤ s.lo + s.size) : t.Within s q := by
  obtain ⟨part', hpos, hlo', hhi', hq⟩ := h
  exact ⟨part', hpos, by omega, by omega, hq⟩

/-- Nodes for spans without a common key have different symbols. -/
theorem Within.symbol_ne {s' : Span} {q' : Sequence} (h : t.Within s q) (h' : t.Within s' q')
    (hle : s.lo + s.size ≤ s'.lo) : q.symbol ≠ q'.symbol := by
  obtain ⟨part, hpos, -, hhi, hq⟩ := h
  obtain ⟨part', -, hlo', -, hq'⟩ := h'
  rw [hq, hq']
  intro heq
  have hlo : part.lo = part'.lo := (Symbol.tree.inj heq).2.1
  omega

/-- A part of a chain lies behind its beginning and in front of its end. -/
theorem bounds_of_mem_chain {lo : Nat} {sizes : List Nat} {part : Span}
    (h : part ∈ Span.chain lo sizes) : lo ≤ part.lo ∧ part.lo + part.size ≤ lo + sizes.sum := by
  induction sizes generalizing lo with
  | nil => cases h
  | cons size sizes ih =>
    rw [List.sum_cons]
    obtain rfl | h := List.mem_cons.1 h
    · exact ⟨Nat.le_refl lo, by simp⟩
    · have hrest := ih h
      omega

/-- What is collected from the parts of a chain has different symbols. -/
theorem nodup_chain {lo : Nat} {sizes : List Nat} {f : Span → List Sequence}
    (hf : ∀ part ∈ Span.chain lo sizes, ((f part).map (·.symbol)).Nodup)
    (hin : ∀ part ∈ Span.chain lo sizes, ∀ q ∈ f part, t.Within part q) :
    (((Span.chain lo sizes).flatMap f).map (·.symbol)).Nodup := by
  induction sizes generalizing lo with
  | nil => exact List.nodup_nil
  | cons size sizes ih =>
    have htail : ∀ part ∈ Span.chain (lo + size) sizes, part ∈ Span.chain lo (size :: sizes) :=
      fun part hpart => List.mem_cons_of_mem _ hpart
    have hhead : (⟨lo, size⟩ : Span) ∈ Span.chain lo (size :: sizes) := List.mem_cons_self
    rw [Span.chain, List.flatMap_cons, List.map_append, List.nodup_append]
    refine ⟨hf _ hhead, ih (fun part hp => hf part (htail part hp))
      fun part hp => hin part (htail part hp), ?_⟩
    intro a ha b hb
    obtain ⟨q, hq, rfl⟩ := List.mem_map.1 ha
    obtain ⟨q', hq', rfl⟩ := List.mem_map.1 hb
    obtain ⟨part, hpart, hq'⟩ := List.mem_flatMap.1 hq'
    exact (hin _ hhead q hq).symbol_ne (hin part (htail part hpart) q' hq')
      (bounds_of_mem_chain hpart).1

/-- The sequences below a node are for fewer keys. -/
theorem within_of_mem_node (h : q ∈ (t.node leaf s).1) :
    ∃ part : Span, part.size < s.size ∧ s.lo ≤ part.lo ∧ part.lo + part.size ≤ s.lo + s.size ∧
      t.Within part q := by
  induction hsize : s.size using Nat.strongRecOn generalizing s with
  | _ n ih =>
    rw [node_eq] at h
    obtain ⟨part, hmem, hq⟩ := List.mem_flatMap.1 h
    obtain ⟨sizes, hparts, hsum, hpos⟩ := t.exists_parts s
    have hbounds := hmem
    rw [hparts] at hbounds
    have hpart := hpos _ (Span.mem_of_mem_chain hbounds)
    obtain ⟨hlo, hhi⟩ := bounds_of_mem_chain hbounds
    unfold choice at hq
    split at hq
    · cases hq
    · rename_i h1
      have hlt := size_lt_of_mem_parts hmem h1
      obtain hq | hq := List.mem_append.1 hq
      · obtain ⟨part', hlt', hlo', hhi', hq⟩ := ih part.size (hsize ▸ hlt) hq rfl
        exact ⟨part', by omega, by omega, by omega, hq⟩
      · rw [List.mem_singleton.1 hq]
        exact ⟨part, by omega, by omega, by omega, part, hpart, Nat.le_refl _, Nat.le_refl _, rfl⟩

/-- The sequences below a node, with that of the node itself, have different symbols. -/
theorem nodup_sequences (hs : 0 < s.size) :
    ((t.sequences leaf s).map (·.symbol)).Nodup := by
  -- The induction is on the size of the span, as the tree is built.
  induction hsize : s.size using Nat.strongRecOn generalizing s with
  | _ n ih =>
    have hbelow : ((t.node leaf s).1.map (·.symbol)).Nodup := by
      obtain ⟨sizes, hparts, -, hpos⟩ := t.exists_parts s
      have hlt : ∀ part ∈ Span.chain s.lo sizes, part.size ≠ 1 → part.size < s.size :=
        fun part hpart => size_lt_of_mem_parts (hparts ▸ hpart)
      rw [node_eq, hparts]
      refine nodup_chain (t := t) (fun part hpart => ?_) fun part hpart q hq => ?_
      · unfold choice
        split
        · exact List.nodup_nil
        · rename_i h1
          exact ih part.size (hsize ▸ hlt part hpart h1) (hpos _ (Span.mem_of_mem_chain hpart)) rfl
      · unfold choice at hq
        split at hq
        · cases hq
        · obtain hq | hq := List.mem_append.1 hq
          · obtain ⟨part', -, hlo, hhi, hq⟩ := within_of_mem_node hq
            exact hq.mono hlo hhi
          · rw [List.mem_singleton.1 hq]
            exact ⟨part, hpos _ (Span.mem_of_mem_chain hpart), Nat.le_refl _, Nat.le_refl _, rfl⟩
    have hroot : t.sequences leaf s = (t.node leaf s).1 ++ [⟨t.symbol s, (t.node leaf s).2⟩] := rfl
    rw [hroot, List.map_append, List.nodup_append]
    refine ⟨hbelow, List.nodup_singleton _, fun a ha b hb => ?_⟩
    obtain ⟨q, hq, rfl⟩ := List.mem_map.1 ha
    obtain ⟨part, hlt, -, -, part', hpos, hlo, hhi, hq⟩ := within_of_mem_node hq
    rw [List.map_singleton, List.mem_singleton] at hb
    rw [hb, hq]
    intro heq
    have hends := Symbol.tree.inj heq
    have hspan := span_eq_of_ends hpos hs hends.2.1 hends.2.2
    rw [hspan] at hlo hhi
    omega

end DispatchTree

/-! ## Names of different symbols -/

/-- The name is made for something other than an exported function: it is that of what prepares a
    module, or it begins as the names of internal sequences, of exported memories, or of exported
    globals do. -/
def IsReserved (name : String) : Prop :=
  name = "__init" ∨ "__internal/".toList <+: name.toList ∨ "__mems/".toList <+: name.toList ∨
    "__globals/".toList <+: name.toList

instance (name : String) : Decidable (IsReserved name) := by
  unfold IsReserved
  infer_instance

namespace Symbol

variable {s t : Symbol} {ns name : String}

/-- What stands behind the last slash is told apart from what stands in front of it. -/
theorem append_slash_inj {u v x y : List Char} (hx : '/' ∉ x) (hy : '/' ∉ y)
    (h : u ++ '/' :: x = v ++ '/' :: y) : u = v ∧ x = y := by
  have hrev := congrArg List.reverse h
  simp only [List.reverse_append, List.reverse_cons, List.append_assoc, List.singleton_append]
    at hrev
  rw [append_separator_inj (by simpa using hx) (by simpa using hy)] at hrev
  exact ⟨List.reverse_injective hrev.2, List.reverse_injective hrev.1⟩

/-- A symbol that is not internal is known by its path, if exported functions have no reserved
    names. -/
theorem publicPath_inj (hs : s.IsOwn) (ht : t.IsOwn) (hsi : ¬s.IsInternal) (hti : ¬t.IsInternal)
    (hsf : ∀ name, s = exportFunc name → ¬IsReserved name)
    (htf : ∀ name, t = exportFunc name → ¬IsReserved name) (h : s.publicPath = t.publicPath) :
    s = t := by
  have hmemory : ∀ op : MemoryOp, '/' ∉ op.name.toList := fun op => by cases op <;> decide
  have hglobal : ∀ op : GlobalOp, '/' ∉ op.name.toList := fun op => by cases op <;> decide
  have hapart : ∀ x y : List Char, "__mems/".toList ++ x ≠ "__globals/".toList ++ y := fun x y =>
    append_ne_append (n := 3) (by decide) (by decide) (by decide)
  have hinit : ∀ start x : List Char, 6 ≤ start.length → start.take 6 ≠ "__init".toList →
      start ++ x ≠ "__init".toList := by
    intro start x hlen hne
    rw [← List.append_nil "__init".toList]
    exact append_ne_append (n := 6) hlen (by decide) hne
  obtain ⟨name, rfl⟩ | ⟨name, op, rfl⟩ | ⟨name, op, rfl⟩ | rfl := public_cases hs hsi <;>
    obtain ⟨name', rfl⟩ | ⟨name', op', rfl⟩ | ⟨name', op', rfl⟩ | rfl := public_cases ht hti
  · rw [String.toList_inj.1 h]
  · exact absurd (.inr (.inr (.inl ⟨_, h.symm⟩))) (hsf name rfl)
  · exact absurd (.inr (.inr (.inr ⟨_, h.symm⟩))) (hsf name rfl)
  · exact absurd (.inl (String.toList_inj.1 h)) (hsf name rfl)
  · exact absurd (.inr (.inr (.inl ⟨_, h⟩))) (htf name' rfl)
  · obtain ⟨hname, hop⟩ := append_slash_inj (hmemory op) (hmemory op') (List.append_cancel_left h)
    rw [String.toList_inj.1 hname, MemoryOp.name_inj.1 (String.toList_inj.1 hop)]
  · exact absurd h (hapart _ _)
  · exact absurd h (hinit _ _ (by decide) (by decide))
  · exact absurd (.inr (.inr (.inr ⟨_, h⟩))) (htf name' rfl)
  · exact absurd h.symm (hapart _ _)
  · obtain ⟨hname, hop⟩ := append_slash_inj (hglobal op) (hglobal op') (List.append_cancel_left h)
    rw [String.toList_inj.1 hname, GlobalOp.name_inj.1 (String.toList_inj.1 hop)]
  · exact absurd h (hinit _ _ (by decide) (by decide))
  · exact absurd (.inl (String.toList_inj.1 h.symm)) (htf name' rfl)
  · exact absurd h.symm (hinit _ _ (by decide) (by decide))
  · exact absurd h.symm (hinit _ _ (by decide) (by decide))
  · rfl

/-- Different symbols of a module have different names, if exported functions have no reserved
    names. -/
theorem qualifiedName_inj (hs : s.IsOwn) (ht : t.IsOwn)
    (hsf : ∀ name, s = exportFunc name → ¬IsReserved name)
    (htf : ∀ name, t = exportFunc name → ¬IsReserved name)
    (h : s.qualifiedName ns = t.qualifiedName ns) : s = t := by
  have hfree : ∀ {q : Symbol}, (∀ name, q = exportFunc name → ¬IsReserved name) →
      ∀ name, q = exportFunc name → ¬internalPrefix <+: name.toList :=
    fun hq name hname hprefix => hq name hname (.inr (.inl hprefix))
  by_cases hsi : s.IsInternal <;> by_cases hti : t.IsInternal
  · exact internalName_inj hsi hti h
  · exact absurd h (ne_internalName hsi ht hti (hfree htf) ns)
  · exact absurd h.symm (ne_internalName hti hs hsi (hfree hsf) ns)
  · refine publicPath_inj hs ht hsi hti hsf htf ?_
    have hpath := congrArg String.toList h
    rw [toList_publicName hs hsi, toList_publicName ht hti, List.append_cancel_left_eq] at hpath
    exact (List.cons.inj hpath).2

end Symbol

/-! ## Symbols of a module -/

namespace Compile

open Wasm

variable {α β : Type} {ns : String} {m : Module} {p : Program} {spaces : IndexSpaces}

/-- What a result of each step is known by is known by what the step is for. -/
theorem map_eq_of_mapM {γ : Type} {f : α → Gen β} {g : β → γ} {key : α → γ} {xs : List α}
    (hf : ∀ x ∈ xs, ∀ pool y pool', f x pool = .ok (y, pool') → g y = key x) {ys : List β}
    {pool pool' : Pool} (h : xs.mapM f pool = .ok (ys, pool')) : ys.map g = xs.map key := by
  induction xs generalizing ys pool pool' with
  | nil =>
    rw [List.mapM_nil] at h
    obtain ⟨rfl, -⟩ := gen_pure_eq_ok.1 h
    rfl
  | cons x xs ih =>
    rw [List.mapM_cons] at h
    obtain ⟨y, pool₁, hy, h⟩ := gen_bind_eq_ok.1 h
    obtain ⟨ys', pool₂, hys, h⟩ := gen_bind_eq_ok.1 h
    obtain ⟨rfl, -⟩ := gen_pure_eq_ok.1 h
    rw [List.map_cons, List.map_cons, hf x List.mem_cons_self pool y pool₁ hy,
      ih (fun x hx => hf x (List.mem_cons_of_mem _ hx)) hys]

/-- What is collected from numbered entries has different symbols, if those of each entry are
    different and tell its number. -/
theorem nodup_numbered (xs : List α) {f : α × Nat → List Sequence} (owner : Symbol → UInt32)
    (hlen : xs.length ≤ 2 ^ 32) (hf : ∀ x i, ((f (x, i)).map (·.symbol)).Nodup)
    (howner : ∀ x i, ∀ q ∈ f (x, i), owner q.symbol = UInt32.ofNat i) :
    ((xs.zipIdx.flatMap f).map (·.symbol)).Nodup := by
  rw [List.map_flatMap, List.nodup_flatMap]
  refine ⟨fun x _ => hf x.1 x.2, ?_⟩
  have hnumbers : (xs.zipIdx.map Prod.snd).Nodup := by
    rw [List.zipIdx_map_snd]
    exact List.nodup_range'
  refine (List.pairwise_map.1 hnumbers).imp_of_mem fun {x y} hx hy hne => ?_
  have hbound : ∀ z ∈ xs.zipIdx, (UInt32.ofNat z.2).toNat = z.2 := by
    intro z hz
    have hlt := List.snd_lt_of_mem_zipIdx hz
    exact UInt32.toNat_ofNat_of_lt' (by simp only [UInt32.size]; omega)
  intro symbol hsx hsy
  obtain ⟨q, hq, rfl⟩ := List.mem_map.1 hsx
  obtain ⟨q', hq', heq⟩ := List.mem_map.1 hsy
  refine hne ?_
  rw [← hbound x hx, ← hbound y hy, ← howner x.1 x.2 q hq, ← howner y.1 y.2 q' hq', heq]

/-- The symbol of a fragment tells its number, and so do those of functions, memories and
    globals. -/
def owner : Symbol → UInt32
  | .func i => i
  | .fragment i => i
  | .memory i _ => i
  | .tree (.swapIn i) _ _ => i
  | .tree (.swapOut i) _ _ => i
  | .global i _ => i
  | _ => 0

theorem owner_of_isOfMemory {i : UInt32} {symbol : Symbol} (h : IsOfMemory i symbol) :
    owner symbol = i := by
  rcases symbol with _ | _ | ⟨j, op⟩ | _ | _ | ⟨j | j | _ | _, lo, hi⟩ | _ | _ | _ | _ | _ | _ | _ | _ <;>
    first
    | exact h.elim
    | exact h

/-- The functions are numbered in their order. -/
theorem symbols_functions {functions : List Sequence} {pool pool' : Pool}
    (h : funcSequences spaces pool = .ok (functions, pool')) : functions.map (·.symbol) =
      spaces.funcs.toList.zipIdx.map fun entry => Symbol.func (UInt32.ofNat entry.2) := by
  refine map_eq_of_mapM (fun entry _ pool q pool' hq => ?_) h
  obtain ⟨cs, pool₁, -, hq⟩ := gen_bind_eq_ok.1 hq
  obtain ⟨rfl, -⟩ := gen_pure_eq_ok.1 hq
  rfl

/-- The functions have different symbols. -/
theorem nodup_functions {functions : List Sequence} {pool pool' : Pool}
    (h : funcSequences spaces pool = .ok (functions, pool')) (hlen : functions.length ≤ 2 ^ 32) :
    (functions.map (·.symbol)).Nodup := by
  have hmap := symbols_functions h
  have hsize : spaces.funcs.toList.length ≤ 2 ^ 32 := by
    have hlength := congrArg List.length hmap
    rw [List.length_map, List.length_map, List.length_zipIdx] at hlength
    omega
  have hnumbered := nodup_numbered spaces.funcs.toList owner
    (f := fun entry => [⟨.func (UInt32.ofNat entry.2), []⟩]) hsize
    (fun _ _ => List.nodup_singleton _)
    fun x i q hq => by rw [List.mem_singleton.1 hq]; rfl
  rw [List.map_flatMap] at hnumbered
  rw [hmap, List.map_eq_flatMap]
  exact hnumbered

/-- The sequences of a memory have different symbols. -/
theorem nodup_memory (ns : String) (i : UInt32) (entry : MemoryEntry) :
    ((memorySequences ns i entry).map (·.symbol)).Nodup := by
  have hoperations : ∀ ops : List MemoryOp, ops.Nodup → (ops.map (Symbol.memory i)).Nodup :=
    fun ops hops => hops.map fun op op' h => by simpa using h
  cases entry with
  | imported source =>
    rw [memorySequences, forwardedMemory, List.map_map]
    exact hoperations MemoryOp.exported (by decide)
  | defined limits =>
    simp only [memorySequences]
    split
    · exact hoperations [.get, .set, .size, .grow] (by decide)
    · rename_i hmax
      have hsize : 0 < (pageSpan (effectiveMax limits)).size := by
        show 0 < (effectiveMax limits).toNat
        exact Nat.pos_of_ne_zero fun hzero => hmax (UInt32.toNat_inj.1 hzero)
      unfold pagedSequences
      rw [List.map_append, List.map_append, List.nodup_append, List.nodup_append]
      refine ⟨⟨DispatchTree.nodup_sequences hsize, DispatchTree.nodup_sequences hsize, ?_⟩,
        hoperations [.swapIn, .swapOut, .get, .set, .size, .grow, .growUnchecked, .growLoop]
          (by decide), ?_⟩
      · intro a ha b hb
        obtain ⟨q, hq, rfl⟩ := List.mem_map.1 ha
        obtain ⟨q', hq', rfl⟩ := List.mem_map.1 hb
        obtain ⟨lo, hi, hsymbol⟩ := tree_symbol hsize hq
        obtain ⟨lo', hi', hsymbol'⟩ := tree_symbol hsize hq'
        rw [hsymbol, hsymbol']
        rintro ⟨⟩
      · intro a ha b hb
        have htree : ∃ base lo hi, a = .tree base lo hi := by
          obtain ha | ha := List.mem_append.1 ha
          · obtain ⟨q, hq, rfl⟩ := List.mem_map.1 ha
            exact ⟨_, tree_symbol hsize hq⟩
          · obtain ⟨q, hq, rfl⟩ := List.mem_map.1 ha
            exact ⟨_, tree_symbol hsize hq⟩
        obtain ⟨base, lo, hi, rfl⟩ := htree
        simp only [List.map_cons, List.map_nil, List.mem_cons, List.not_mem_nil, or_false] at hb
        rcases hb with rfl | rfl | rfl | rfl | rfl | rfl | rfl | rfl <;> rintro ⟨⟩

/-- The sequences of a global have different symbols, and tell its number. -/
theorem nodup_global (i : UInt32) (entry : GlobalEntry) :
    ((globalSequences i entry).map (·.symbol)).Nodup ∧
      ∀ q ∈ globalSequences i entry, ∃ op, q.symbol = .global i op := by
  have hoperations : ∀ ops : List GlobalOp, ops.Nodup → (ops.map (Symbol.global i)).Nodup :=
    fun ops hops => hops.map fun op op' h => by simpa using h
  cases entry with
  | defined type init =>
    refine ⟨hoperations [.get, .set] (by decide), fun q hq => ?_⟩
    obtain rfl | hq := List.mem_cons.1 hq
    · exact ⟨.get, rfl⟩
    · rw [List.mem_singleton.1 hq]
      exact ⟨.set, rfl⟩
  | imported type source =>
    refine ⟨?_, fun q hq => ?_⟩
    · rw [globalSequences, List.map_map]
      refine hoperations (globalOps type) ?_
      unfold globalOps
      split <;> decide
    · obtain ⟨op, -, rfl⟩ := List.mem_map.1 hq
      exact ⟨op, rfl⟩

/-- The fragments have different symbols. -/
theorem nodup_fragments (pool : Pool) (hlen : pool.toList.length ≤ 2 ^ 32) :
    ((fragmentSequences pool).map (·.symbol)).Nodup := by
  have hsingle : fragmentSequences pool = pool.toList.zipIdx.flatMap fun x =>
      [⟨.fragment (UInt32.ofNat x.2), x.1⟩] := List.map_eq_flatMap
  rw [hsingle]
  exact nodup_numbered _ owner hlen (fun _ _ => List.nodup_singleton _)
    fun x i q hq => by rw [List.mem_singleton.1 hq]; rfl

/-- What is collected from exports with different names has different symbols, if those of each
    export are different and tell its name. -/
theorem nodup_named {es : List Export} {f : Export → List Sequence} (named : Symbol → String)
    (hes : (es.map (·.name)).Nodup) (hf : ∀ e, ((f e).map (·.symbol)).Nodup)
    (hnamed : ∀ e, ∀ q ∈ f e, named q.symbol = e.name) :
    ((es.flatMap f).map (·.symbol)).Nodup := by
  rw [List.map_flatMap, List.nodup_flatMap]
  refine ⟨fun e _ => hf e, (List.pairwise_map.1 hes).imp fun {e e'} hne symbol hse hse' => ?_⟩
  obtain ⟨q, hq, rfl⟩ := List.mem_map.1 hse
  obtain ⟨q', hq', heq⟩ := List.mem_map.1 hse'
  exact hne (by rw [← hnamed e q hq, ← hnamed e' q' hq', heq])

/-- The name that an export's symbol mentions. -/
def exportedName : Symbol → String
  | .exportFunc name => name
  | .exportMemory name _ => name
  | .exportGlobal name _ => name
  | _ => ""

theorem symbol_exportMemory {e : Export} {q : Sequence} (h : q ∈ exportMemory e) :
    ∃ op, q.symbol = .exportMemory e.name op := by
  obtain ⟨op, -, rfl⟩ := List.mem_map.1 h
  exact ⟨op, rfl⟩

theorem symbol_exportGlobal {e : Export} {q : Sequence} (h : q ∈ exportGlobal spaces e) :
    ∃ op, q.symbol = .exportGlobal e.name op := by
  obtain ⟨op, -, rfl⟩ := List.mem_map.1 h
  exact ⟨op, rfl⟩

theorem nodup_exportMemory (e : Export) : ((exportMemory e).map (·.symbol)).Nodup := by
  have hops : (MemoryOp.exported.map (Symbol.exportMemory e.name)).Nodup :=
    List.Nodup.map (fun op op' h => by simpa using h) (by decide)
  rw [exportMemory, List.map_map]
  exact hops

theorem nodup_exportGlobal (e : Export) : ((exportGlobal spaces e).map (·.symbol)).Nodup := by
  have hops : ∀ ops : List GlobalOp, ops.Nodup →
      (ops.map (Symbol.exportGlobal e.name)).Nodup :=
    fun ops hops => hops.map fun op op' h => by simpa using h
  rw [exportGlobal, List.map_map]
  refine hops _ ?_
  split
  · unfold globalOps
    split <;> decide
  · decide

/-- Which part of a program a sequence belongs to, told by its symbol. -/
def part : Symbol → Nat
  | .func _ => 0
  | .memory _ _ => 1
  | .tree _ _ _ => 1
  | .swapOutAll => 2
  | .global _ _ => 3
  | .exportFunc _ => 4
  | .exportMemory _ _ => 5
  | .exportGlobal _ _ => 6
  | .fragment _ => 7
  | _ => 8

/-- Different symbols, all of parts below a number. -/
structure PartsBelow (n : Nat) (ss : List Sequence) : Prop where
  nodup : (ss.map (·.symbol)).Nodup
  below : ∀ s ∈ ss, part s.symbol < n

/-- The next part may follow. -/
theorem PartsBelow.append {n : Nat} {ss : List Sequence} (h : PartsBelow n ss)
    (ts : List Sequence) (hts : (ts.map (·.symbol)).Nodup) (hpart : ∀ t ∈ ts, part t.symbol = n) :
    PartsBelow (n + 1) (ss ++ ts) := by
  refine ⟨?_, fun s hs => ?_⟩
  · rw [List.map_append, List.nodup_append]
    refine ⟨h.nodup, hts, fun a ha b hb heq => ?_⟩
    obtain ⟨s, hs, rfl⟩ := List.mem_map.1 ha
    obtain ⟨t, ht, rfl⟩ := List.mem_map.1 hb
    have hlt := h.below s hs
    rw [heq, hpart t ht] at hlt
    exact Nat.lt_irrefl n hlt
  · obtain hs | hs := List.mem_append.1 hs
    · exact Nat.lt_succ_of_lt (h.below s hs)
    · rw [hpart s hs]
      exact Nat.lt_succ_self n

/-- Entries that each have something collected from them are no more than what is collected. -/
theorem length_le_flatMap (xs : List α) {f : α → List β} (hf : ∀ x, f x ≠ []) :
    xs.length ≤ (xs.flatMap f).length := by
  induction xs with
  | nil => exact Nat.le_refl 0
  | cons x xs ih =>
    have hpos := List.length_pos_iff.2 (hf x)
    rw [List.flatMap_cons, List.length_append, List.length_cons]
    omega

theorem memorySequences_ne_nil (ns : String) (i : UInt32) (entry : MemoryEntry) :
    memorySequences ns i entry ≠ [] := by
  cases entry with
  | imported source => exact List.cons_ne_nil _ _
  | defined limits =>
    simp only [memorySequences]
    split
    · exact List.cons_ne_nil _ _
    · exact List.append_ne_nil_of_right_ne_nil _ (List.cons_ne_nil _ _)

theorem globalSequences_ne_nil (i : UInt32) (entry : GlobalEntry) :
    globalSequences i entry ≠ [] := by
  cases entry with
  | defined type init => exact List.cons_ne_nil _ _
  | imported type source =>
    simp only [globalSequences, globalOps]
    split <;> exact List.cons_ne_nil _ _

namespace Compiled

variable (c : Compiled ns m p)

include c

/-- The sequences of a module have different symbols, if its exports have different names and the
    sequences can be numbered. -/
theorem nodup_symbols (hexports : (m.exports.map (·.name)).Nodup)
    (hsize : p.sequences.length ≤ 2 ^ 32) : (p.sequences.map (·.symbol)).Nodup := by
  have hsequences := congrArg Program.sequences c.program
  simp only at hsequences
  have hlength := congrArg List.length hsequences
  simp only [List.length_append] at hlength
  obtain ⟨pool, hfunctions, -⟩ := c.exists_funcSequences
  have hmemories : c.spaces.memories.toList.length ≤ (allMemorySequences ns c.spaces).length := by
    have hle := length_le_flatMap c.spaces.memories.toList.zipIdx
      fun x => memorySequences_ne_nil ns (UInt32.ofNat x.2) x.1
    rwa [List.length_zipIdx] at hle
  have hglobals : c.spaces.globals.toList.length ≤ (allGlobalSequences c.spaces).length := by
    have hle := length_le_flatMap c.spaces.globals.toList.zipIdx
      fun x => globalSequences_ne_nil (UInt32.ofNat x.2) x.1
    rwa [List.length_zipIdx] at hle
  have hfragments : (fragmentSequences c.pool).length = c.pool.toList.length := by
    rw [fragmentSequences, List.length_map, List.length_zipIdx]
  have hkind : ∀ kind, ((exportsOf m kind).map (·.name)).Nodup := fun kind =>
    hexports.sublist (List.filter_sublist.map _)
  -- The parts of the program, one behind the other.
  have h₀ : PartsBelow 1 c.functions := by
    refine ⟨nodup_functions hfunctions (by omega), fun s hs => ?_⟩
    obtain ⟨⟨i, hi⟩, -⟩ := c.lowered_ordinary.1 s hs
    rw [hi]
    exact Nat.one_pos
  have h₁ := h₀.append (allMemorySequences ns c.spaces)
    (nodup_numbered _ owner (by omega) (fun x i => nodup_memory ns (UInt32.ofNat i) x)
      fun x i q hq => owner_of_isOfMemory (oneEach_memory.isOfMemory q hq))
    (fun t ht => by
      obtain ⟨x, -, ht⟩ := List.mem_flatMap.1 ht
      have hmem := oneEach_memory.isOfMemory t ht
      cases hs : t.symbol <;> rw [hs] at hmem <;> first | rfl | exact hmem.elim)
  have h₂ := h₁.append (swapOutSequences ns c.spaces)
    (by unfold swapOutSequences; split <;> simp)
    (fun t ht => by rw [mem_swapOutSequences ht]; rfl)
  have h₃ := h₂.append (allGlobalSequences c.spaces)
    (nodup_numbered _ owner (by omega) (fun x i => (nodup_global (UInt32.ofNat i) x).1)
      fun x i q hq => by
        obtain ⟨op, hop⟩ := (nodup_global (UInt32.ofNat i) x).2 q hq
        rw [hop]
        rfl)
    (fun t ht => by
      obtain ⟨x, -, ht⟩ := List.mem_flatMap.1 ht
      obtain ⟨op, hop⟩ := (nodup_global (UInt32.ofNat x.2) x.1).2 t ht
      rw [hop]
      rfl)
  have h₄ := h₃.append ((exportsOf m .func).flatMap (exportFunc c.spaces))
    (nodup_named exportedName (hkind .func) (fun _ => List.nodup_singleton _)
      fun e q hq => by rw [List.mem_singleton.1 hq]; rfl)
    (fun t ht => by
      obtain ⟨e, -, ht⟩ := List.mem_flatMap.1 ht
      rw [List.mem_singleton.1 ht]
      rfl)
  have h₅ := h₄.append ((exportsOf m .memory).flatMap exportMemory)
    (nodup_named exportedName (hkind .memory) nodup_exportMemory fun e q hq => by
      obtain ⟨op, hop⟩ := symbol_exportMemory hq
      rw [hop]
      rfl)
    (fun t ht => by
      obtain ⟨e, -, ht⟩ := List.mem_flatMap.1 ht
      obtain ⟨op, hop⟩ := symbol_exportMemory ht
      rw [hop]
      rfl)
  have h₆ := h₅.append ((exportsOf m .global).flatMap (exportGlobal c.spaces))
    (nodup_named exportedName (hkind .global) nodup_exportGlobal fun e q hq => by
      obtain ⟨op, hop⟩ := symbol_exportGlobal hq
      rw [hop]
      rfl)
    (fun t ht => by
      obtain ⟨e, -, ht⟩ := List.mem_flatMap.1 ht
      obtain ⟨op, hop⟩ := symbol_exportGlobal ht
      rw [hop]
      rfl)
  have h₇ := h₆.append (fragmentSequences c.pool)
    (nodup_fragments c.pool (by omega))
    (fun t ht => by
      obtain ⟨x, -, rfl⟩ := List.mem_map.1 ht
      rfl)
  have h₈ := h₇.append ([⟨.init, c.init⟩]) (List.nodup_singleton _)
    (fun t ht => by rw [List.mem_singleton.1 ht]; rfl)
  rw [hsequences]
  unfold exportSequences
  simpa only [List.append_assoc] using h₈.nodup

end Compiled

/-! ## Names of a module -/

/-- **Names of sequences.**  A module whose exports have different names, and which exports no
    function under a name that is made for something else, becomes sequences with different names,
    and loading it makes each of them what its name means. -/
theorem nodup_names (h : compileModule ns m = .ok p) (hexports : (m.exports.map (·.name)).Nodup)
    (hfree : ∀ e ∈ m.exports, e.kind = .func → ¬IsReserved e.name)
    (hsize : p.sequences.length ≤ 2 ^ 32) :
    (p.sequences.map p.nameOf).Nodup ∧ ∀ (code : Machine.Code), ∀ s ∈ p.sequences,
      (code.addProgram p).function (p.nameOf s) = .ok ⟨ns, s.commands⟩ := by
  obtain ⟨c⟩ := exists_compiled h
  have hsymbols := c.nodup_symbols hexports hsize
  have hexported : ∀ s ∈ p.sequences, ∀ name, s.symbol = .exportFunc name → ¬IsReserved name := by
    intro s hs name hname
    obtain ⟨e, he, hkind, rfl, -⟩ := c.exists_export hs hname
    exact hfree e he hkind
  have hinj : ∀ s ∈ p.sequences, ∀ t ∈ p.sequences, p.nameOf s = p.nameOf t →
      s.symbol = t.symbol := by
    intro s hs t ht heq
    exact Symbol.qualifiedName_inj (c.isOwn hs) (c.isOwn ht) (hexported s hs) (hexported t ht) heq
  refine ⟨?_, fun code s hs => ?_⟩
  · refine List.pairwise_map.2 ((List.pairwise_map.1 hsymbols).imp_of_mem ?_)
    intro s t hs ht hne heq
    exact hne (hinj s hs t ht heq)
  · have hp : p ∈ [p] := List.mem_cons_self
    refine Machine.function_foldl_addProgram hp hs rfl ?_
    intro q hq t ht heq
    rw [List.mem_singleton.1 hq] at ht heq ⊢
    have hts := List.inj_on_of_nodup_map hsymbols ht hs (hinj t ht s hs heq)
    rw [hts, Machine.functionOf, c.ns_eq]

/-- A module of one function that does nothing, exported under a name. -/
def idleModule (name : String) : Module where
  types := [⟨[], []⟩]
  funcs := [⟨0, [], []⟩]
  exports := [⟨name, .func, 0⟩]

/-- Such a module under an ordinary name. -/
theorem nodup_names_idle :
    ∃ p, compileModule "demo" (idleModule "run") = .ok p ∧ (p.sequences.map p.nameOf).Nodup :=
  ⟨_, rfl, (@nodup_names "demo" (idleModule "run") _ rfl (by decide) (by decide)
    (by decide)).1⟩

/-- Names are not always different: the sequence of the export and that of the function itself have
    the same name here, and loading the module leaves only one of them. -/
theorem not_nodup_names_of_internal_export :
    ∃ p, compileModule "demo" (idleModule "__internal/funcs/0") = .ok p ∧
      ((idleModule "__internal/funcs/0").exports.map (·.name)).Nodup ∧
      ¬(p.sequences.map p.nameOf).Nodup ∧
      ∃ s ∈ p.sequences, (Machine.Code.addProgram {} p).function (p.nameOf s) ≠
        .ok ⟨"demo", s.commands⟩ := by
  refine ⟨_, rfl, by decide, by decide, ⟨.func 0, []⟩, by decide, fun heq => ?_⟩
  -- The export comes behind the function, so its sequence is the one that stays.
  have hstays := @Machine.functions_foldl_addSequence
    (Machine.Code.addSequence ⟨"demo", [], []⟩ {} ⟨.func 0, []⟩) ⟨"demo", [], []⟩
    "demo:__internal/funcs/0" ⟨"demo", callSequence (.func 0) 0⟩
    [⟨.exportFunc "__internal/funcs/0", callSequence (.func 0) 0⟩,
      ⟨.init, [.setData memoriesPath .emptyList, .setData globalsPath .emptyList]⟩]
    (by decide) (.inl (by decide))
  have hfound := heq.symm.trans (Machine.function_of_getElem? hstays)
  exact absurd (congrArg Machine.Function.commands (Except.ok.inj hfound)) (by decide)

end Compile

end WasmPack
