/-
  WasmPack.Proofs.Execution.Dispatch

  What running a dispatch tree does: the command of the key, once, if the
  register holds a key of the span, and else nothing.
-/
import Mathlib.Algebra.Ring.Nat
import WasmPack.Dispatch
import WasmPack.Proofs.Execution.Runs

namespace WasmPack

/-! ## Parts of a span -/

namespace Span

/-- The number is one of the keys. -/
def Has (s : Span) (v : Int32) : Prop := s.lo ≤ v.toInt ∧ v.toInt < s.lo + s.size

instance (s : Span) (v : Int32) : Decidable (s.Has v) := instDecidableAnd

theorem has_mk {lo size : Nat} {v : Int32} :
    Has ⟨lo, size⟩ v ↔ lo ≤ v.toInt ∧ v.toInt < lo + size := Iff.rfl

/-- Every key is less than 2³¹, so that a register can hold it. -/
def Fits (s : Span) : Prop := s.lo + s.size ≤ 2 ^ 31

theorem fits_mk {lo size : Nat} : Fits ⟨lo, size⟩ ↔ lo + size ≤ 2 ^ 31 := Iff.rfl

end Span

theorem sum_partSizes {count size : Nat} (h : 0 < count) : (partSizes count size).sum = size := by
  have hmod := Nat.mod_lt size h
  have hdiv := Nat.div_add_mod size count
  have hsplit : count * (size / count) =
      (count - size % count) * (size / count) + size % count * (size / count) := by
    rw [← Nat.add_mul, Nat.sub_add_cancel (Nat.le_of_lt hmod)]
  rw [partSizes, List.sum_append_nat, List.sum_replicate_nat, List.sum_replicate_nat, Nat.mul_add]
  omega

theorem pos_of_mem_partSizes {count size n : Nat} (hc : 0 < count) (hle : count ≤ size)
    (h : n ∈ partSizes count size) : 0 < n := by
  have hq : 0 < size / count := Nat.div_pos hle hc
  rcases List.mem_append.1 h with h | h
  · obtain ⟨-, rfl⟩ := List.mem_replicate.1 h
    omega
  · obtain ⟨-, rfl⟩ := List.mem_replicate.1 h
    exact hq

namespace DispatchTree

variable (t : DispatchTree) (leaf : Nat → Command)

/-- The parts of a span with keys are the spans of some sizes, none of them zero, one behind the
    other. -/
theorem exists_parts (s : Span) :
    ∃ sizes : List Nat, t.parts s = Span.chain s.lo sizes ∧ sizes.sum = s.size ∧
      ∀ n ∈ sizes, 0 < n := by
  by_cases hs : s.size = 0
  · refine ⟨[], ?_, hs.symm, by simp⟩
    rw [parts, hs, Nat.min_zero]
    rfl
  · have hpos : 0 < min (max t.factor 2) s.size := by omega
    exact ⟨_, rfl, sum_partSizes hpos, fun n hn =>
      pos_of_mem_partSizes hpos (Nat.min_le_right _ _) hn⟩

/-- What a node holds for a part of its span: the sequences below it, and one command. -/
def choice (part : Span) : List Sequence × Command :=
  if part.size = 1 then ([], t.branch leaf part.lo)
  else ((t.node leaf part).1 ++ [⟨t.symbol part, (t.node leaf part).2⟩], t.descend part)

/-- The choice for a part, where making the commands of the keys has effects. -/
def choiceM [Monad m] (leaf : Nat → m Command) (part : Span) : m (List Sequence × Command) :=
  if part.size = 1 then
    (fun c => ([], c.ifIn t.key (.exact (Int32.ofNat part.lo)))) <$> leaf part.lo
  else
    (fun below => (below.1 ++ [⟨t.symbol part, below.2⟩], t.descend part)) <$> t.nodeM leaf part

/-- A node is made of the choices for its parts, one after the other. -/
theorem nodeM_eq [Monad m] [LawfulMonad m] (leaf : Nat → m Command) (s : Span) :
    t.nodeM leaf s = (fun branches => (branches.flatMap (·.1), branches.map (·.2))) <$>
      (t.parts s).mapM (t.choiceM leaf) := by
  rw [nodeM, map_eq_pure_bind, List.mapM_subtype (g := t.choiceM leaf), List.unattach_attach]
  intro part hpart
  unfold choiceM
  split <;> simp only [map_eq_pure_bind]

theorem choiceM_pure (part : Span) :
    (t.choiceM (m := Id) (fun key => pure (leaf key)) part).run = t.choice leaf part := by
  unfold choiceM choice
  split <;> rfl

/-- A node is made of the choices for its parts. -/
theorem node_eq (s : Span) :
    t.node leaf s = ((t.parts s).flatMap fun part => (t.choice leaf part).1,
      (t.parts s).map fun part => (t.choice leaf part).2) := by
  have hmap : ((t.parts s).mapM (t.choiceM (m := Id) fun key => pure (leaf key))).run =
      (t.parts s).map (t.choice leaf) := by
    rw [List.idRun_mapM]
    exact List.map_congr_left fun part _ => t.choiceM_pure leaf part
  rw [node, nodeM_eq, Id.run_map, hmap, List.flatMap_map, List.map_map]
  rfl

/-- The sequences of a tree are those below its root, and the root. -/
theorem sequences_eq (s : Span) :
    t.sequences leaf s = (t.node leaf s).1 ++ [⟨t.symbol s, (t.node leaf s).2⟩] := rfl

end DispatchTree

namespace DispatchTree

/-! ## The sequences of a tree -/

variable {t : DispatchTree} {leaf : Nat → Command}

/-- The sequences below a node are those of nodes for spans with keys, each with all the sequences
    below it. -/
theorem eq_of_mem_node {s : Span} {q : Sequence} (h : q ∈ (t.node leaf s).1) :
    ∃ part : Span, 0 < part.size ∧ q = ⟨t.symbol part, (t.node leaf part).2⟩ ∧
      (t.node leaf part).1 ⊆ (t.node leaf s).1 := by
  -- The induction is on the size of the span, as the tree is built.
  induction hsize : s.size using Nat.strongRecOn generalizing s with
  | _ n ih =>
    rw [node_eq] at h
    obtain ⟨part, hmem, hq⟩ := List.mem_flatMap.1 h
    obtain ⟨sizes, hparts, -, hpos⟩ := t.exists_parts s
    unfold choice at hq
    split at hq
    · cases hq
    · rename_i h1
      have hbelow : (t.node leaf part).1 ⊆ (t.node leaf s).1 := fun r hr => by
        rw [node_eq (s := s)]
        refine List.mem_flatMap.2 ⟨part, hmem, ?_⟩
        rw [choice, if_neg h1]
        exact List.mem_append_left _ hr
      obtain hq | hq := List.mem_append.1 hq
      · obtain ⟨inner, hinner, heq, hsub⟩ :=
          ih part.size (hsize ▸ size_lt_of_mem_parts hmem h1) hq rfl
        exact ⟨inner, hinner, heq, fun r hr => hbelow (hsub hr)⟩
      · rw [hparts] at hmem
        exact ⟨part, hpos _ (Span.mem_of_mem_chain hmem), List.mem_singleton.1 hq, hbelow⟩

/-- The sequences of a tree are those of nodes for spans with keys. -/
theorem eq_of_mem_sequences {s : Span} {q : Sequence} (hs : 0 < s.size)
    (h : q ∈ t.sequences leaf s) :
    ∃ part : Span, 0 < part.size ∧ q = ⟨t.symbol part, (t.node leaf part).2⟩ := by
  obtain h | h := List.mem_append.1 h
  · obtain ⟨part, hpart, hq, -⟩ := eq_of_mem_node h
    exact ⟨part, hpart, hq⟩
  · exact ⟨s, hs, List.mem_singleton.1 h⟩

/-- The commands of a tree are those of keys and calls of its nodes, each behind a guard. -/
theorem forall_of_mem_sequences {P : Command → Prop} {s : Span} {q : Sequence}
    (hleaf : ∀ key range, P ((leaf key).ifIn t.key range))
    (hcall : ∀ part range, (∃ r ∈ t.sequences leaf s, r.symbol = t.symbol part) →
      P ((Command.call (t.symbol part)).ifIn t.key range))
    (h : q ∈ t.sequences leaf s) : ∀ c ∈ q.commands, P c := by
  have hnode : ∀ part, (t.node leaf part).1 ⊆ (t.node leaf s).1 →
      ∀ c ∈ (t.node leaf part).2, P c := by
    intro part hsub c hc
    rw [node_eq] at hc hsub
    obtain ⟨inner, hinner, rfl⟩ := List.mem_map.1 hc
    unfold choice
    split
    · exact hleaf _ _
    · rename_i h1
      refine hcall _ _ ⟨⟨t.symbol inner, (t.node leaf inner).2⟩, List.mem_append_left _ ?_, rfl⟩
      refine hsub (List.mem_flatMap.2 ⟨inner, hinner, ?_⟩)
      rw [choice, if_neg h1]
      exact List.mem_append_right _ List.mem_cons_self
  obtain h | h := List.mem_append.1 h
  · obtain ⟨part, -, rfl, hsub⟩ := eq_of_mem_node h
    exact hnode part hsub
  · rw [List.mem_singleton.1 h]
    exact hnode s fun _ hr => hr

/-- The symbol of a node tells its span. -/
theorem span_eq_of_ends {s s' : Span} (hs : 0 < s.size) (hs' : 0 < s'.size) (hlo : s.lo = s'.lo)
    (hlast : s.last = s'.last) : s = s' := by
  unfold Span.last at hlast
  cases s
  cases s'
  simp only [Span.mk.injEq] at *
  omega

end DispatchTree

/-! ## Running a tree -/

namespace Machine

/-- The sequences are found under their symbols, for a module with the given namespace. -/
def Code.Finds (code : Code) (ns : String) (sequences : List Sequence) : Prop :=
  ∀ s ∈ sequences, code.function (s.symbol.qualifiedName ns) = .ok ⟨ns, s.commands⟩

end Machine

namespace DispatchTree

open Machine

variable {t : DispatchTree} {leaf : Nat → Command} {code : Code} {ns : String} {σ σ' : State}
  {v : Int32} {r : Except Fault Unit} {part s : Span}

theorem contains_exact_iff {n : Nat} (h : n < 2 ^ 31) :
    (Range.exact (Int32.ofNat n)).contains v = true ↔ v.toInt = n := by
  rw [contains_exact, ← Int32.toInt_inj, Int32.toInt_ofNat_of_lt h]

theorem contains_between_iff {m n : Nat} (hm : m < 2 ^ 31) (hn : n < 2 ^ 31) :
    (Range.between (Int32.ofNat m) (Int32.ofNat n)).contains v = true ↔
      m ≤ v.toInt ∧ v.toInt ≤ n := by
  show (decide (Int32.ofNat m ≤ v) && decide (v ≤ Int32.ofNat n)) = true ↔ _
  rw [Bool.and_eq_true, decide_eq_true_eq, decide_eq_true_eq, Int32.le_iff_toInt_le,
    Int32.le_iff_toInt_le, Int32.toInt_ofNat_of_lt hm, Int32.toInt_ofNat_of_lt hn]

/-- The range in front of the command for a part holds its keys. -/
theorem guard_iff (hp : 0 < part.size) (hfit : part.Fits) :
    (if part.size = 1 then Range.exact (Int32.ofNat part.lo)
      else .between (Int32.ofNat part.lo) (Int32.ofNat part.last)).contains v = true ↔
      part.Has v := by
  unfold Span.Fits at hfit
  unfold Span.Has
  split
  · rw [contains_exact_iff (by omega)]
    omega
  · unfold Span.last
    rw [contains_between_iff (by omega) (by omega)]
    omega

/-- The command for a part is skipped where the register holds none of its keys. -/
theorem choice_skipped (hp : 0 < part.size) (hfit : part.Fits) (hv : σ.regs t.key = some v)
    (hhas : ¬part.Has v) {rest : List Command} {outer : List Function}
    (h : Runs code (⟨ns, rest⟩ :: outer) σ r σ') :
    Runs code (⟨ns, (t.choice leaf part).2 :: rest⟩ :: outer) σ r σ' := by
  have hguard := guard_iff (v := v) hp hfit
  have hrange := Bool.eq_false_iff.2 (mt hguard.1 hhas)
  unfold choice
  split
  · rename_i hsize
    rw [if_pos hsize] at hrange
    exact .blocked (by rw [allows_ifIn hv, hrange]) h
  · rename_i hsize
    rw [if_neg hsize] at hrange
    exact Runs.blocked (c := .call (t.symbol part)) (by rw [allows_ifIn hv, hrange]) h

/-- The commands for parts in a row do nothing where the register holds no key of them. -/
theorem choices_miss {sizes : List Nat} {lo : Nat} (hpos : ∀ n ∈ sizes, 0 < n)
    (hfit : lo + sizes.sum ≤ 2 ^ 31) (hv : σ.regs t.key = some v)
    (hout : v.toInt < lo ∨ lo + sizes.sum ≤ v.toInt) :
    Runs code [⟨ns, (Span.chain lo sizes).map fun part => (t.choice leaf part).2⟩] σ (.ok ()) σ := by
  induction sizes generalizing lo with
  | nil => exact .nil
  | cons n sizes ih =>
    rw [List.sum_cons] at hfit hout
    have hn := hpos n List.mem_cons_self
    refine choice_skipped hn (Span.fits_mk.2 (by omega)) hv ?_
      (ih (fun m hm => hpos m (List.mem_cons_of_mem n hm)) (by omega) (by omega))
    rw [Span.has_mk]
    omega

/-- The commands for parts in a row do what the command for the part with the key does. -/
theorem choices_hit {sizes : List Nat} {lo : Nat} (hpos : ∀ n ∈ sizes, 0 < n)
    (hfit : lo + sizes.sum ≤ 2 ^ 31) (hv : σ.regs t.key = some v) (hlo : lo ≤ v.toInt)
    (hhi : v.toInt < lo + sizes.sum)
    (hpart : ∀ part ∈ Span.chain lo sizes, part.Has v →
      Runs code [⟨ns, [(t.choice leaf part).2]⟩] σ r σ')
    (hkey : r = .ok () → σ'.regs t.key = some v) :
    Runs code [⟨ns, (Span.chain lo sizes).map fun part => (t.choice leaf part).2⟩] σ r σ' := by
  induction sizes generalizing lo with
  | nil =>
    rw [List.sum_nil] at hhi
    omega
  | cons n sizes ih =>
    rw [List.sum_cons] at hfit hhi
    have hn := hpos n List.mem_cons_self
    have hrest : ∀ m ∈ sizes, 0 < m := fun m hm => hpos m (List.mem_cons_of_mem n hm)
    by_cases hhas : Span.Has ⟨lo, n⟩ v
    · have hfirst := hpart _ List.mem_cons_self hhas
      have hlt := hhas.2
      cases r with
      | ok u => exact hfirst.seq (choices_miss hrest (by omega) (hkey rfl) (.inl hlt))
      | error e => exact hfirst.seq_fault
    · have hge : lo + n ≤ v.toInt := by
        rw [Span.has_mk] at hhas
        omega
      exact choice_skipped hn (Span.fits_mk.2 (by omega)) hv hhas
        (ih hrest (by omega) (by omega) (by omega) fun part hp =>
          hpart part (List.mem_cons_of_mem _ hp))

/-- A node does nothing where the register holds none of its keys. -/
theorem node_miss (hfit : s.Fits) (hv : σ.regs t.key = some v) (hhas : ¬s.Has v) :
    Runs code [⟨ns, (t.node leaf s).2⟩] σ (.ok ()) σ := by
  obtain ⟨sizes, hparts, hsum, hpos⟩ := t.exists_parts s
  unfold Span.Fits at hfit
  unfold Span.Has at hhas
  rw [node_eq, hparts]
  rw [← hsum] at hfit hhas
  exact choices_miss hpos hfit hv (by omega)

/-- Every part of a span lies in it. -/
theorem fits_of_mem_chain {sizes : List Nat} {lo : Nat} (h : part ∈ Span.chain lo sizes) :
    part.lo + part.size ≤ lo + sizes.sum := by
  induction sizes generalizing lo with
  | nil => cases h
  | cons n sizes ih =>
    rw [List.sum_cons]
    obtain rfl | h := List.mem_cons.1 h
    · show lo + n ≤ _
      omega
    · have := ih h
      omega

/-- A node does what the command of the key does where the register holds one of its keys. -/
theorem node_hit (hfit : s.Fits) (hfinds : code.Finds ns (t.node leaf s).1)
    (hv : σ.regs t.key = some v) (hhas : s.Has v)
    (hleaf : Runs code [⟨ns, [leaf v.toInt.toNat]⟩] σ r σ')
    (hkey : r = .ok () → σ'.regs t.key = some v) :
    Runs code [⟨ns, (t.node leaf s).2⟩] σ r σ' := by
  -- The induction is on the size of the span, as the tree is built.
  induction hsize : s.size using Nat.strongRecOn generalizing s with
  | _ n ih =>
    obtain ⟨sizes, hparts, hsum, hpos⟩ := t.exists_parts s
    have hfinds' : ∀ part ∈ t.parts s, code.Finds ns (t.choice leaf part).1 := by
      intro part hp q hq
      refine hfinds q ?_
      rw [node_eq]
      exact List.mem_flatMap.2 ⟨part, hp, hq⟩
    unfold Span.Fits at hfit
    rw [node_eq, hparts]
    refine choices_hit hpos (hsum ▸ hfit) hv hhas.1 (hsum ▸ hhas.2) (fun part hp hpart => ?_) hkey
    have hmem : part ∈ t.parts s := hparts ▸ hp
    have hfits : part.Fits := by
      have hle := fits_of_mem_chain hp
      unfold Span.Fits
      omega
    have hpos' := hpos _ (Span.mem_of_mem_chain hp)
    have hfind := hfinds' part hmem
    have hguard := (guard_iff hpos' hfits).2 hpart
    unfold choice at hfind ⊢
    split
    · rename_i h1
      rw [if_pos h1] at hguard
      have hlo : v.toInt.toNat = part.lo := by
        unfold Span.Has at hpart
        omega
      rw [hlo] at hleaf
      exact .guarded (by rw [allows_ifIn hv, hguard]) hleaf
    · rename_i h1
      rw [if_neg h1] at hguard hfind
      have hbelow : code.Finds ns (t.node leaf part).1 := fun q hq =>
        hfind q (List.mem_append_left _ hq)
      have hself := hfind _ (List.mem_append_right _ List.mem_cons_self)
      have hbody := ih part.size (hsize ▸ size_lt_of_mem_parts hmem h1) hfits hbelow hpart rfl
      refine Runs.guarded (c := .call (t.symbol part)) (by rw [allows_ifIn hv, hguard]) ?_
      cases r with
      | ok u => exact .call .call hself hbody .nil
      | error e => exact .call_fault .call hself hbody

/-! ## Calling a tree -/

/-- Calling a tree does what the command of the key does. -/
theorem call_hit (hfit : s.Fits)
    (hfinds : code.Finds ns (t.sequences leaf s)) (hv : σ.regs t.key = some v) (hhas : s.Has v)
    (hleaf : Runs code [⟨ns, [leaf v.toInt.toNat]⟩] σ r σ')
    (hkey : r = .ok () → σ'.regs t.key = some v) :
    Runs code [⟨ns, [.call (t.symbol s)]⟩] σ r σ' := by
  have hbelow : code.Finds ns (t.node leaf s).1 := fun q hq =>
    hfinds q (List.mem_append_left _ hq)
  have hself := hfinds _ (List.mem_append_right _ List.mem_cons_self)
  have hbody := node_hit hfit hbelow hv hhas hleaf hkey
  cases r with
  | ok u => exact .call .call hself hbody .nil
  | error e => exact .call_fault .call hself hbody

/-- Calling a tree does nothing where the register holds none of its keys. -/
theorem call_miss (hfit : s.Fits) (hfinds : code.Finds ns (t.sequences leaf s))
    (hv : σ.regs t.key = some v) (hhas : ¬s.Has v) :
    Runs code [⟨ns, [.call (t.symbol s)]⟩] σ (.ok ()) σ :=
  .call .call (hfinds _ (List.mem_append_right _ List.mem_cons_self)) (node_miss hfit hv hhas) .nil

end DispatchTree

end WasmPack
