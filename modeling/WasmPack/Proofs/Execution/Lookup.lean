/-
  WasmPack.Proofs.Execution.Lookup

  A dispatch tree selects one command and no other.

  The commands of the keys are made once each, in ascending order.  A run that
  calls the root comes to the command of the key, goes on behind it, and leaves
  the tree; on the way it changes nothing, comes to no other command, and has only
  so many functions under way as the tree has levels.
-/
import Mathlib.Algebra.Ring.Nat
import WasmPack.Proofs.Compile.Distinct
import WasmPack.Proofs.Execution.Along

namespace WasmPack

/-! ## Making the commands of the keys -/

/-- What comes behind a list that was made with effects counts only for lists of its length. -/
theorem mapM_bind_congr {m : Type → Type} [Monad m] [LawfulMonad m] {α β γ : Type} {g : α → m β}
    {xs : List α} {f f' : List β → m γ} (h : ∀ ys, ys.length = xs.length → f ys = f' ys) :
    xs.mapM g >>= f = xs.mapM g >>= f' := by
  induction xs generalizing f f' with
  | nil => simp only [List.mapM_nil, pure_bind, h [] rfl]
  | cons x xs ih =>
    simp only [List.mapM_cons, bind_assoc, pure_bind]
    congr 1
    funext y
    apply ih
    intro ys hys
    exact h (y :: ys) (by rw [List.length_cons, List.length_cons, hys])

namespace DispatchTree

variable {m : Type → Type} [Monad m] [LawfulMonad m] {t : DispatchTree} {s part : Span}
  {leaf leaf' : Nat → Command} {lo key : Nat} {sizes : List Nat} {cs ds : List Command}

/-- The command of a key, from a list of those for all keys from `lo` on. -/
def pick (lo : Nat) (cs : List Command) (key : Nat) : Command := cs.getD (key - lo) default

theorem pick_append_left (hlo : lo ≤ key) (h : key < lo + cs.length) :
    pick lo (cs ++ ds) key = pick lo cs key := by
  have hlt : key - lo < cs.length := by omega
  unfold pick
  rw [List.getD_eq_getElem?_getD, List.getElem?_append_left hlt, ← List.getD_eq_getElem?_getD]

theorem pick_append_right (h : lo + cs.length ≤ key) :
    pick lo (cs ++ ds) key = pick (lo + cs.length) ds key := by
  have hle : cs.length ≤ key - lo := by omega
  have hsub : key - lo - cs.length = key - (lo + cs.length) := by omega
  unfold pick
  rw [List.getD_eq_getElem?_getD, List.getElem?_append_right hle, hsub,
    ← List.getD_eq_getElem?_getD]

/-- The choice for a part depends only on the commands of its own keys. -/
theorem choice_congr (h : ∀ key, part.lo ≤ key → key < part.lo + part.size → leaf key = leaf' key) :
    t.choice leaf part = t.choice leaf' part := by
  -- The induction is on the size of the part, as the tree is built.
  induction hsize : part.size using Nat.strongRecOn generalizing part with
  | _ n ih =>
    unfold choice
    split
    · rename_i h1
      have hlo : leaf part.lo = leaf' part.lo := h part.lo (Nat.le_refl _) (by omega)
      unfold branch
      rw [hlo]
    · have hbelow : ∀ inner ∈ t.parts part, t.choice leaf inner = t.choice leaf' inner := by
        intro inner hinner
        obtain ⟨sizes, hparts, hsum, -⟩ := t.exists_parts part
        have hbounds := bounds_of_mem_chain (hparts ▸ hinner)
        by_cases h1 : inner.size = 1
        · have hlo : leaf inner.lo = leaf' inner.lo := h inner.lo hbounds.1 (by omega)
          unfold choice branch
          rw [if_pos h1, if_pos h1, hlo]
        · have hlt := size_lt_of_mem_parts hinner h1
          exact ih inner.size (by omega) (fun key hlo hhi => h key (by omega) (by omega)) rfl
      have hnode : t.node leaf part = t.node leaf' part := by
        rw [node_eq, node_eq]
        congr 1
        · rw [List.flatMap_congr fun inner hinner => by rw [hbelow inner hinner]]
        · rw [List.map_congr_left fun inner hinner => by rw [hbelow inner hinner]]
      rw [hnode]

/-- Parts in a row make the commands of their keys one after the other. -/
theorem mapM_choiceM_chain (make : Nat → m Command)
    (h : ∀ part ∈ Span.chain lo sizes, t.choiceM make part =
      (fun cs => t.choice (pick part.lo cs) part) <$> (List.range' part.lo part.size).mapM make) :
    (Span.chain lo sizes).mapM (t.choiceM make) =
      (fun cs => (Span.chain lo sizes).map (t.choice (pick lo cs))) <$>
        (List.range' lo sizes.sum).mapM make := by
  induction sizes generalizing lo with
  | nil => simp [Span.chain]
  | cons n sizes ih =>
    have hhead := h ⟨lo, n⟩ List.mem_cons_self
    have htail := ih fun part hpart => h part (List.mem_cons_of_mem _ hpart)
    rw [Span.chain, List.mapM_cons, hhead, htail, List.sum_cons, ← List.range'_append_1,
      List.mapM_append]
    simp only [map_eq_pure_bind, bind_assoc, pure_bind, List.map_cons]
    -- The commands of the first part are as many as it has keys, so the others lie behind them.
    apply mapM_bind_congr
    intro cs hcs
    rw [List.length_range'] at hcs
    congr 1
    funext ds
    have hfirst : t.choice (pick lo (cs ++ ds)) ⟨lo, n⟩ = t.choice (pick lo cs) ⟨lo, n⟩ := by
      apply choice_congr
      intro key hlo hhi
      have hlt : key < lo + n := hhi
      exact pick_append_left hlo (by omega)
    have hrest : ∀ part ∈ Span.chain (lo + n) sizes,
        t.choice (pick lo (cs ++ ds)) part = t.choice (pick (lo + n) ds) part := by
      intro part hpart
      have hlo := (bounds_of_mem_chain hpart).1
      apply choice_congr
      intro key hkey _
      rw [pick_append_right (by omega), hcs]
    rw [hfirst, List.map_congr_left hrest]

/-- A node makes the command of every key of its span once, in ascending order. -/
theorem nodeM_eq_map (make : Nat → m Command) (s : Span) :
    t.nodeM make s =
      (fun cs => t.node (pick s.lo cs) s) <$> (List.range' s.lo s.size).mapM make := by
  induction hsize : s.size using Nat.strongRecOn generalizing s with
  | _ n ih =>
    obtain ⟨sizes, hparts, hsum, hpos⟩ := t.exists_parts s
    have hchoice : ∀ part ∈ Span.chain s.lo sizes, t.choiceM make part =
        (fun cs => t.choice (pick part.lo cs) part) <$>
          (List.range' part.lo part.size).mapM make := by
      intro part hpart
      unfold choiceM choice
      split
      · rename_i h1
        rw [h1, List.range'_one, List.mapM_cons, List.mapM_nil]
        simp only [map_eq_pure_bind, bind_assoc, pure_bind, branch, pick, Nat.sub_self]
        rfl
      · rename_i h1
        have hlt := size_lt_of_mem_parts (hparts ▸ hpart) h1
        rw [ih part.size (by omega) part rfl, Functor.map_map]
    rw [nodeM_eq, hparts, mapM_choiceM_chain make hchoice, Functor.map_map, hsum, ← hsize]
    congr 1
    funext cs
    rw [node_eq, hparts, List.flatMap_map, List.map_map]
    rfl

/-- The tree makes the command of every key of its span once, in ascending order, and is the tree
    of the commands made. -/
theorem sequencesM_eq_map (make : Nat → m Command) (s : Span) :
    t.sequencesM make s =
      (fun cs => t.sequences (pick s.lo cs) s) <$> (List.range' s.lo s.size).mapM make := by
  rw [sequencesM, nodeM_eq_map, bind_map_left, map_eq_pure_bind]
  rfl

end DispatchTree

/-! ## Levels -/

namespace DispatchTree

variable {t : DispatchTree} {s part : Span} {k : Nat}

/-- The parts of a span have fewer keys by a level. -/
theorem size_le_of_mem_parts (h : part ∈ t.parts s) (hs : s.size ≤ (max t.factor 2) ^ (k + 1)) :
    part.size ≤ (max t.factor 2) ^ k := by
  generalize hb : max t.factor 2 = b at hs
  have hpow : 0 < b ^ k := Nat.pow_pos (by omega)
  have hmem : part.size ∈ partSizes (min b s.size) s.size := hb ▸ Span.mem_of_mem_chain h
  rw [Nat.pow_succ'] at hs
  by_cases hle : s.size ≤ b
  · -- So few keys have a part each.
    rw [Nat.min_eq_right hle] at hmem
    rcases List.mem_append.1 hmem with hmem | hmem
    · obtain ⟨hne, -⟩ := List.mem_replicate.1 hmem
      rw [Nat.mod_self] at hne
      exact absurd rfl hne
    · obtain ⟨hne, hsize⟩ := List.mem_replicate.1 hmem
      rw [Nat.div_self (by omega)] at hsize
      omega
  · rw [Nat.min_eq_left (by omega)] at hmem
    have hdiv := Nat.div_add_mod s.size b
    rcases List.mem_append.1 hmem with hmem | hmem
    · obtain ⟨hne, hsize⟩ := List.mem_replicate.1 hmem
      have hlt : b * (s.size / b) < b * b ^ k := by omega
      have hquot := Nat.lt_of_mul_lt_mul_left hlt
      omega
    · obtain ⟨-, hsize⟩ := List.mem_replicate.1 hmem
      have hle' : b * (s.size / b) ≤ b * b ^ k := by omega
      have hquot := Nat.le_of_mul_le_mul_left hle' (by omega)
      omega

/-- The parts with a key among parts in a row are one, if they have the key at all. -/
theorem exists_part_of_has {sizes : List Nat} {lo : Nat} {v : Int32} (hlo : lo ≤ v.toInt)
    (hhi : v.toInt < lo + sizes.sum) : ∃ pre part post,
      Span.chain lo sizes = pre ++ part :: post ∧ part.Has v ∧ ∀ q ∈ pre ++ post, ¬q.Has v := by
  induction sizes generalizing lo with
  | nil =>
    rw [List.sum_nil] at hhi
    omega
  | cons n sizes ih =>
    rw [List.sum_cons] at hhi
    by_cases hhas : Span.Has ⟨lo, n⟩ v
    · refine ⟨[], ⟨lo, n⟩, Span.chain (lo + n) sizes, rfl, hhas, fun q hq hq' => ?_⟩
      have hbounds := (bounds_of_mem_chain hq).1
      rw [Span.has_mk] at hhas
      have hq'' := hq'.1
      omega
    · rw [Span.has_mk] at hhas
      have hlo' : ((lo + n : Nat) : Int) ≤ v.toInt := by omega
      obtain ⟨pre, part, post, hchain, hpart, hnone⟩ := ih hlo' (by omega)
      refine ⟨⟨lo, n⟩ :: pre, part, post, by rw [Span.chain, hchain]; rfl, hpart, fun q hq => ?_⟩
      rcases List.mem_cons.1 hq with rfl | hq
      · rw [Span.has_mk]
        omega
      · exact hnone q hq

end DispatchTree

/-! ## Runs through a tree -/

namespace Machine

/-- A command runs, with all that it calls, from one store to another. -/
def Ran (code : Code) (ns : String) (c : Command) (x x' : Store) : Prop :=
  ∃ names entered x₁, step code.tags ns c x = .ok names x₁ ∧ code.functionsOf names = .ok entered ∧
    Reaches code ⟨entered, x₁⟩ ⟨[], x'⟩

end Machine

namespace DispatchTree

open Machine Compile

variable {t : DispatchTree} {leaf : Nat → Command} {code : Code} {ns : String} {x x' : Store}
  {v : Int32} {s part : Span} {k deep : Nat} {rest : List Command} {outer : List Function}

/-- The run is about to do the command of a key: that comes next, and the register holds the key. -/
def AtLeaf (t : DispatchTree) (leaf : Nat → Command) (x : Config) : Prop :=
  ∃ ns key rest outer, x.frames = ⟨ns, t.branch leaf key :: rest⟩ :: outer ∧
    x.store.read t.key = .ok (Int32.ofNat key)

/-- One step inside the tree: it does no command of a key, changes nothing, and leaves at most
    `deep` functions under way. -/
structure Passes (t : DispatchTree) (leaf : Nat → Command) (code : Code) (deep : Nat)
    (x y : Config) : Prop where
  next : Next code x y
  unchanged : y.store = x.store
  inside : ¬t.AtLeaf leaf x
  shallow : y.frames.length ≤ deep

/-- A way inside the tree. -/
def Passage (t : DispatchTree) (leaf : Nat → Command) (code : Code) (deep : Nat) :
    Config → Config → Prop := Relation.ReflTransGen (t.Passes leaf code deep)

/-- What a guarded command does is decided by the register. -/
theorem step_ifIn {tags : TagTable} {c : Command} {r : Register} {range : Range}
    (hv : x.read r = .ok v) :
    step tags ns (c.ifIn r range) x =
      if range.contains v = true then step tags ns c x else .ok [] x := by
  have hholds : Machine.holds x (.isIn r range) = .ok (range.contains v) := by
    rw [Machine.holds, hv]
    rfl
  have hgate : gate x (.onlyIf (.isIn r range) :: (chain c).1) = _ := gate_onlyIf hholds
  cases hin : range.contains v with
  | true => exact step_of_gate (by rwa [hin] at hgate)
  | false => exact step_of_gate_false (by rwa [hin] at hgate)

/-- Only the command of a key stands behind the range of one number. -/
theorem range_eq_of_branch {c : Command} {range : Range} {key : Nat}
    (h : c.ifIn t.key range = t.branch leaf key) : range = .exact (Int32.ofNat key) := by
  have hchain := congrArg (fun d => (chain d).1) h
  simp only [branch, Command.ifIn, chain_guarded, Modifier.ifIn, List.cons.injEq,
    Modifier.onlyIf.injEq, Condition.isIn.injEq, true_and] at hchain
  exact hchain.1

theorem call_ne_branch {symbol : Symbol} {key : Nat} : .call symbol ≠ t.branch leaf key := by
  intro h
  have hchain := congrArg (fun d => (chain d).1) h
  simp [branch, Command.ifIn, chain_guarded, chain] at hchain

theorem descend_ne_branch {key : Nat} (h : 1 < part.size) (hfit : part.Fits) :
    t.descend part ≠ t.branch leaf key := by
  intro heq
  have hrange := range_eq_of_branch heq
  simp only [Range.between, Range.exact, Range.mk.injEq, Option.some.injEq] at hrange
  have hends : Int32.ofNat part.lo = Int32.ofNat part.last := hrange.1.trans hrange.2.symm
  unfold Span.Fits at hfit
  unfold Span.last at hends
  rw [← Int32.toInt_inj, Int32.toInt_ofNat_of_lt (by omega),
    Int32.toInt_ofNat_of_lt (by omega)] at hends
  omega

/-- A command that is skipped is passed. -/
theorem passes_choice (hpos : 0 < part.size) (hfit : part.Fits) (hv : x.read t.key = .ok v)
    (hhas : ¬part.Has v) (hdeep : outer.length + 1 ≤ deep) :
    t.Passes leaf code deep ⟨⟨ns, (t.choice leaf part).2 :: rest⟩ :: outer, x⟩
      ⟨⟨ns, rest⟩ :: outer, x⟩ := by
  have hguard := mt (guard_iff (v := v) hpos hfit).1 hhas
  have hstep : step code.tags ns (t.choice leaf part).2 x = .ok [] x := by
    unfold choice
    split
    · rename_i h1
      rw [if_pos h1] at hguard
      unfold branch
      rw [step_ifIn hv, if_neg hguard]
    · rename_i h1
      rw [if_neg h1] at hguard
      unfold descend
      rw [step_ifIn hv, if_neg hguard]
  refine ⟨.step hstep rfl, rfl, ?_, hdeep⟩
  rintro ⟨ns', key, rest', outer', hframes, hkey⟩
  have hbranch : (t.choice leaf part).2 = t.branch leaf key := by
    simp only [List.cons.injEq, Function.mk.injEq] at hframes
    exact hframes.1.2.1
  have hvalue : v = Int32.ofNat key := Except.ok.inj (hv.symm.trans hkey)
  unfold choice at hbranch
  split at hbranch
  · rename_i h1
    rw [if_pos h1, range_eq_of_branch hbranch, hvalue] at hguard
    exact hguard (contains_exact.2 rfl)
  · exact descend_ne_branch (by omega) hfit hbranch

/-- Commands that are skipped are passed. -/
theorem passage_choices {parts : List Span} (hpos : ∀ part ∈ parts, 0 < part.size)
    (hfit : ∀ part ∈ parts, part.Fits) (hv : x.read t.key = .ok v)
    (hhas : ∀ part ∈ parts, ¬part.Has v) (hdeep : outer.length + 1 ≤ deep) :
    t.Passage leaf code deep
      ⟨⟨ns, parts.map (fun part => (t.choice leaf part).2) ++ rest⟩ :: outer, x⟩
      ⟨⟨ns, rest⟩ :: outer, x⟩ := by
  induction parts with
  | nil => exact .refl
  | cons part parts ih =>
    have hhead : part ∈ part :: parts := List.mem_cons_self
    refine .head (passes_choice (hpos part hhead) (hfit part hhead) hv (hhas part hhead) hdeep) ?_
    apply ih
    · exact fun q hq => hpos q (List.mem_cons_of_mem part hq)
    · exact fun q hq => hfit q (List.mem_cons_of_mem part hq)
    · exact fun q hq => hhas q (List.mem_cons_of_mem part hq)

/-- A function at its end is left. -/
theorem passes_leave (hdeep : outer.length ≤ deep) :
    t.Passes leaf code deep ⟨⟨ns, []⟩ :: outer, x⟩ ⟨outer, x⟩ := by
  refine ⟨.leave, rfl, ?_, hdeep⟩
  rintro ⟨ns', key, rest', outer', hframes, -⟩
  simp at hframes

/-- Where only commands are left that are skipped, the function is left. -/
theorem passage_leave {parts : List Span} (hpos : ∀ part ∈ parts, 0 < part.size)
    (hfit : ∀ part ∈ parts, part.Fits) (hv : x.read t.key = .ok v)
    (hhas : ∀ part ∈ parts, ¬part.Has v) (hdeep : outer.length + 1 ≤ deep) :
    t.Passage leaf code deep ⟨⟨ns, parts.map fun part => (t.choice leaf part).2⟩ :: outer, x⟩
      ⟨outer, x⟩ := by
  rw [← List.append_nil (parts.map _)]
  exact (passage_choices hpos hfit hv hhas hdeep).tail (passes_leave (by omega))

/-- A node is entered. -/
theorem passes_enter {c : Command} {symbol : Symbol} {body : List Command}
    (hstep : step code.tags ns c x = .ok [symbol.qualifiedName ns] x)
    (hf : code.function (symbol.qualifiedName ns) = .ok ⟨ns, body⟩)
    (hc : ∀ key, c ≠ t.branch leaf key) (hdeep : outer.length + 2 ≤ deep) :
    t.Passes leaf code deep ⟨⟨ns, c :: rest⟩ :: outer, x⟩
      ⟨⟨ns, body⟩ :: ⟨ns, rest⟩ :: outer, x⟩ := by
  have hentered : code.functionsOf [symbol.qualifiedName ns] = .ok [⟨ns, body⟩] := by
    rw [Code.functionsOf, hf]
    rfl
  refine ⟨.step hstep hentered, rfl, ?_, hdeep⟩
  rintro ⟨ns', key, rest', outer', hframes, -⟩
  simp only [List.cons.injEq, Function.mk.injEq] at hframes
  exact hc key hframes.1.2.1

/-- From the functions `fs` on, a way inside the tree comes to the command of a key, and one that
    goes on behind it, in any store with the same key, comes to the functions `gs`. -/
def Selects (t : DispatchTree) (leaf : Nat → Command) (code : Code) (deep : Nat) (ns : String)
    (v : Int32) (x : Store) (fs gs : List Function) : Prop :=
  ∃ post outer,
    t.Passage leaf code deep ⟨fs, x⟩ ⟨⟨ns, t.branch leaf v.toInt.toNat :: post⟩ :: outer, x⟩ ∧
      ∀ x', x'.read t.key = .ok v → t.Passage leaf code deep ⟨⟨ns, post⟩ :: outer, x'⟩ ⟨gs, x'⟩

theorem Selects.head {fs fs' gs : List Function}
    (h : t.Passage leaf code deep ⟨fs, x⟩ ⟨fs', x⟩) (h' : t.Selects leaf code deep ns v x fs' gs) :
    t.Selects leaf code deep ns v x fs gs := by
  obtain ⟨post, outer, hto, hfrom⟩ := h'
  exact ⟨post, outer, h.trans hto, hfrom⟩

theorem Selects.tail {fs gs gs' : List Function} (h : t.Selects leaf code deep ns v x fs gs)
    (h' : ∀ x', x'.read t.key = .ok v → t.Passage leaf code deep ⟨gs, x'⟩ ⟨gs', x'⟩) :
    t.Selects leaf code deep ns v x fs gs' := by
  obtain ⟨post, outer, hto, hfrom⟩ := h
  exact ⟨post, outer, hto, fun x' hx' => (hfrom x' hx').trans (h' x' hx')⟩

/-- A node is passed where the register holds none of its keys. -/
theorem passage_node (hfit : s.Fits) (hv : x.read t.key = .ok v) (hhas : ¬s.Has v)
    (hdeep : outer.length + 1 ≤ deep) :
    t.Passage leaf code deep ⟨⟨ns, (t.node leaf s).2⟩ :: outer, x⟩ ⟨outer, x⟩ := by
  obtain ⟨sizes, hparts, hsum, hpos⟩ := t.exists_parts s
  have hbounds : ∀ part ∈ Span.chain s.lo sizes, part.Fits ∧ ¬part.Has v := by
    intro part hpart
    have hpart' := bounds_of_mem_chain hpart
    unfold Span.Fits Span.Has at *
    omega
  rw [node_eq, hparts]
  exact passage_leave (fun part hpart => hpos _ (Span.mem_of_mem_chain hpart))
    (fun part hpart => (hbounds part hpart).1) hv (fun part hpart => (hbounds part hpart).2) hdeep

/-- The command for one key comes to the command of that key. -/
theorem selects_branch (h1 : part.size = 1) (hhas : part.Has v) :
    t.Selects leaf code deep ns v x (⟨ns, (t.choice leaf part).2 :: rest⟩ :: outer)
      (⟨ns, rest⟩ :: outer) := by
  have hlo : v.toInt.toNat = part.lo := by
    unfold Span.Has at hhas
    omega
  have hchoice : (t.choice leaf part).2 = t.branch leaf v.toInt.toNat := by
    unfold choice
    rw [if_pos h1, hlo]
  rw [hchoice]
  exact ⟨rest, outer, .refl, fun x' _ => .refl⟩

/-- A node comes to the command of the key if the command for the part with the key does. -/
theorem selects_of_part (hfit : s.Fits) (hv : x.read t.key = .ok v) (hhas : s.Has v)
    (hdeep : outer.length + 1 ≤ deep)
    (h : ∀ part ∈ t.parts s, 0 < part.size → part.Fits → part.Has v → ∀ rest,
      t.Selects leaf code deep ns v x (⟨ns, (t.choice leaf part).2 :: rest⟩ :: outer)
        (⟨ns, rest⟩ :: outer)) :
    t.Selects leaf code deep ns v x (⟨ns, (t.node leaf s).2⟩ :: outer) outer := by
  obtain ⟨sizes, hparts, hsum, hpos⟩ := t.exists_parts s
  obtain ⟨pre, part, post, hchain, hpart, hnone⟩ :=
    exists_part_of_has hhas.1 (by rw [hsum]; exact hhas.2)
  have hpos' : ∀ q ∈ Span.chain s.lo sizes, 0 < q.size := fun q hq =>
    hpos _ (Span.mem_of_mem_chain hq)
  have hfit' : ∀ q ∈ Span.chain s.lo sizes, q.Fits := by
    intro q hq
    have hbounds := bounds_of_mem_chain hq
    unfold Span.Fits at *
    omega
  have hpre : ∀ q ∈ pre, q ∈ Span.chain s.lo sizes := fun q hq => by
    rw [hchain]
    exact List.mem_append_left _ hq
  have hpost : ∀ q ∈ post, q ∈ Span.chain s.lo sizes := fun q hq => by
    rw [hchain]
    exact List.mem_append_right _ (List.mem_cons_of_mem _ hq)
  have hself : part ∈ Span.chain s.lo sizes := by
    rw [hchain]
    exact List.mem_append_right _ List.mem_cons_self
  have hcommands : (t.node leaf s).2 = pre.map (fun part => (t.choice leaf part).2) ++
      (t.choice leaf part).2 :: post.map fun part => (t.choice leaf part).2 := by
    rw [node_eq, hparts, hchain]
    exact List.map_append
  rw [hcommands]
  apply Selects.head
  · exact passage_choices (fun q hq => hpos' q (hpre q hq)) (fun q hq => hfit' q (hpre q hq)) hv
      (fun q hq => hnone q (List.mem_append_left _ hq)) hdeep
  apply (h part (hparts ▸ hself) (hpos' part hself) (hfit' part hself) hpart _).tail
  -- Behind the command of the key the register still holds it, so what is left is skipped.
  intro x' hx'
  exact passage_leave (fun q hq => hpos' q (hpost q hq)) (fun q hq => hfit' q (hpost q hq)) hx'
    (fun q hq => hnone q (List.mem_append_right _ hq)) hdeep

/-- A node comes to the command of the key, with as many functions under way as it has levels. -/
theorem selects_node (hk : s.size ≤ (max t.factor 2) ^ (k + 1)) (hfit : s.Fits)
    (hfinds : code.Finds ns (t.node leaf s).1) (hv : x.read t.key = .ok v) (hhas : s.Has v)
    (hdeep : outer.length + k + 1 ≤ deep) :
    t.Selects leaf code deep ns v x (⟨ns, (t.node leaf s).2⟩ :: outer) outer := by
  -- The induction is on the levels: a part with several keys is a node with one level fewer.
  induction k generalizing s outer with
  | zero =>
    apply selects_of_part hfit hv hhas (by omega)
    intro part hmem hpos _ hpart rest
    have hone : part.size ≤ 1 := size_le_of_mem_parts hmem hk
    exact selects_branch (by omega) hpart
  | succ k ih =>
    apply selects_of_part hfit hv hhas (by omega)
    intro part hmem hpos hfits hpart rest
    by_cases h1 : part.size = 1
    · exact selects_branch h1 hpart
    have hbelow : code.Finds ns (t.choice leaf part).1 := by
      intro q hq
      apply hfinds
      rw [node_eq]
      exact List.mem_flatMap.2 ⟨part, hmem, hq⟩
    have hguard := (guard_iff hpos hfits).2 hpart
    unfold choice at hbelow ⊢
    rw [if_neg h1] at hbelow hguard ⊢
    have hself := hbelow _ (List.mem_append_right _ List.mem_cons_self)
    have hstep : step code.tags ns (t.descend part) x =
        .ok [(t.symbol part).qualifiedName ns] x := by
      unfold descend
      rw [step_ifIn hv, if_pos hguard]
      rfl
    have hdeep' : (⟨ns, rest⟩ :: outer).length + k + 1 ≤ deep := by
      rw [List.length_cons]
      omega
    have hnode := ih (size_le_of_mem_parts hmem hk) hfits
      (fun q hq => hbelow q (List.mem_append_left _ hq)) hpart hdeep'
    apply Selects.head _ hnode
    exact .single (passes_enter hstep hself
      (fun key => descend_ne_branch (by omega) hfits) (by omega))

/-- A call of the root comes to the command of the key. -/
theorem selects_call (hk : s.size ≤ (max t.factor 2) ^ (k + 1)) (hfit : s.Fits)
    (hfinds : code.Finds ns (t.sequences leaf s)) (hv : x.read t.key = .ok v) (hhas : s.Has v)
    (hdeep : outer.length + 1 + (k + 1) ≤ deep) :
    t.Selects leaf code deep ns v x (⟨ns, .call (t.symbol s) :: rest⟩ :: outer)
      (⟨ns, rest⟩ :: outer) := by
  have hself := hfinds _ (List.mem_append_right _ List.mem_cons_self)
  have hdeep' : (⟨ns, rest⟩ :: outer).length + k + 1 ≤ deep := by
    rw [List.length_cons]
    omega
  have hnode := selects_node hk hfit (fun q hq => hfinds q (List.mem_append_left _ hq)) hv hhas
    hdeep'
  apply Selects.head _ hnode
  exact .single (passes_enter rfl hself (fun key => call_ne_branch) (by omega))

/-- A call of the root passes the tree where the register holds none of its keys. -/
theorem passage_call (hfit : s.Fits) (hfinds : code.Finds ns (t.sequences leaf s))
    (hv : x.read t.key = .ok v) (hhas : ¬s.Has v) (hdeep : outer.length + 2 ≤ deep) :
    t.Passage leaf code deep ⟨⟨ns, .call (t.symbol s) :: rest⟩ :: outer, x⟩
      ⟨⟨ns, rest⟩ :: outer, x⟩ := by
  have hself := hfinds _ (List.mem_append_right _ List.mem_cons_self)
  refine .head (passes_enter rfl hself (fun key => call_ne_branch) hdeep) ?_
  exact passage_node hfit hv hhas (by rw [List.length_cons]; omega)

/-! ## Looking up a key -/

/-- The commands of the keys leave the key as it is. -/
def KeepsKey (t : DispatchTree) (leaf : Nat → Command) (code : Code) (ns : String) : Prop :=
  ∀ key x x', Ran code ns (leaf key) x x' → x'.read t.key = x.read t.key

/-- Without keys there is only the root. -/
theorem sequences_of_no_keys (hs : s.size = 0) : t.sequences leaf s = [⟨t.symbol s, []⟩] := by
  have hparts : t.parts s = [] := by
    unfold parts
    rw [hs, Nat.min_zero]
    rfl
  rw [sequences_eq, node_eq, hparts]
  rfl

/-- What a call of the root does in a store where the register holds `v`, with `rest` behind the
    call and `outer` further out: at most `k` functions of the tree are under way at a time, and
    only a key of the span has its command done. -/
structure LooksUp (t : DispatchTree) (leaf : Nat → Command) (code : Code) (ns : String) (s : Span)
    (k : Nat) (v : Int32) (x : Store) (rest : List Command) (outer : List Function) : Prop where
  absent : ¬s.Has v → t.Passage leaf code (outer.length + 1 + k)
    ⟨⟨ns, .call (t.symbol s) :: rest⟩ :: outer, x⟩ ⟨⟨ns, rest⟩ :: outer, x⟩
  present : s.Has v → ∃ post fs,
    t.Passage leaf code (outer.length + 1 + k) ⟨⟨ns, .call (t.symbol s) :: rest⟩ :: outer, x⟩
        ⟨⟨ns, t.branch leaf v.toInt.toNat :: post⟩ :: fs, x⟩ ∧
      step code.tags ns (t.branch leaf v.toInt.toNat) x =
        step code.tags ns (leaf v.toInt.toNat) x ∧
      ∀ x', Ran code ns (leaf v.toInt.toNat) x x' →
        Reaches code ⟨⟨ns, t.branch leaf v.toInt.toNat :: post⟩ :: fs, x⟩ ⟨⟨ns, post⟩ :: fs, x'⟩ ∧
          t.Passage leaf code (outer.length + 1 + k) ⟨⟨ns, post⟩ :: fs, x'⟩
            ⟨⟨ns, rest⟩ :: outer, x'⟩

/-- **A dispatch tree selects exactly one command.**  The commands of the keys are made once each,
    in ascending order; the symbols of the sequences are different; and a call of the root comes to
    the command of the key that the register holds, once, and to that of no other key, on a way
    that has at most as many functions of the tree under way at a time as it has levels. -/
theorem looksUp_of_finds (t : DispatchTree) (leaf : Nat → Command) (s : Span) (hfit : s.Fits)
    (hfinds : code.Finds ns (t.sequences leaf s)) (hkeeps : t.KeepsKey leaf code ns) (hk : 1 ≤ k)
    (hsize : s.size ≤ (max t.factor 2) ^ k) :
    (∀ {m : Type → Type} [Monad m] [LawfulMonad m] (make : Nat → m Command), t.sequencesM make s =
        (fun cs => t.sequences (pick s.lo cs) s) <$> (List.range' s.lo s.size).mapM make) ∧
      ((t.sequences leaf s).map (·.symbol)).Nodup ∧
      ∀ v x rest outer, x.read t.key = .ok v → t.LooksUp leaf code ns s k v x rest outer := by
  refine ⟨fun make => sequencesM_eq_map make s, ?_, fun v x rest outer hv => ?_⟩
  · rcases Nat.eq_zero_or_pos s.size with hs | hs
    · rw [sequences_of_no_keys hs]
      exact List.nodup_singleton _
    · exact nodup_sequences hs
  obtain ⟨k, rfl⟩ : ∃ n, k = n + 1 := ⟨k - 1, by omega⟩
  refine ⟨fun hhas => passage_call hfit hfinds hv hhas (by omega), fun hhas => ?_⟩
  -- Each level of the tree adds a frame to those of the caller.
  have hselects : t.Selects leaf code (outer.length + 1 + (k + 1)) ns v x
      (⟨ns, .call (t.symbol s) :: rest⟩ :: outer) (⟨ns, rest⟩ :: outer) :=
    selects_call hsize hfit hfinds hv hhas (Nat.le_refl _)
  obtain ⟨post, fs, hto, hfrom⟩ := hselects
  have hvalue : (Range.exact (Int32.ofNat v.toInt.toNat)).contains v = true := by
    unfold Span.Fits at hfit
    unfold Span.Has at hhas
    rw [contains_exact_iff (by omega)]
    omega
  have hstep : step code.tags ns (t.branch leaf v.toInt.toNat) x =
      step code.tags ns (leaf v.toInt.toNat) x := by
    unfold branch
    rw [step_ifIn hv, if_pos hvalue]
  refine ⟨post, fs, hto, hstep, fun x' hran => ⟨?_, ?_⟩⟩
  · obtain ⟨names, entered, x₁, hleaf, hentered, hends⟩ := hran
    exact .head (.step (hstep.trans hleaf) hentered) (Reaches.behind hends (⟨ns, post⟩ :: fs))
  · exact hfrom x' ((hkeeps _ _ _ hran).trans hv)

/-- The sequences of a tree are found once it has been loaded. -/
theorem finds_addProgram (t : DispatchTree) (leaf : Nat → Command) (s : Span) (code : Code)
    (ns : String) : (code.addProgram ⟨ns, t.sequences leaf s, []⟩).Finds ns (t.sequences leaf s) := by
  intro r hr
  have hunique : ∀ r' ∈ t.sequences leaf s,
      r'.symbol.qualifiedName ns = r.symbol.qualifiedName ns → r' = r := by
    intro r' hr' hname
    rcases Nat.eq_zero_or_pos s.size with hs | hs
    · rw [sequences_of_no_keys hs] at hr hr'
      rw [List.mem_singleton.1 hr, List.mem_singleton.1 hr']
    · obtain ⟨lo, hi, hsymbol⟩ := tree_symbol hs hr
      obtain ⟨lo', hi', hsymbol'⟩ := tree_symbol hs hr'
      rw [hsymbol, hsymbol'] at hname
      obtain ⟨rfl, rfl⟩ := tree_name_inj.1 hname
      exact tree_unique hs hr' hr (hsymbol'.trans hsymbol.symm)
  let p : Program := ⟨ns, t.sequences leaf s, []⟩
  refine function_foldl_addProgram (List.mem_singleton.2 (rfl : p = p)) hr rfl ?_
  intro p hp r' hr' hname
  rw [List.mem_singleton.1 hp] at hr' hname ⊢
  rw [hunique r' hr' hname]
  rfl

/-- Five keys in a tree with two parts to a node: the way to the command of the key 3, which gives
    that number to `#a`. -/
theorem looksUp_three_of_five :
    let t : DispatchTree := ⟨.byteGet, .index, 2⟩
    let leaf : Nat → Command := fun key => .setScore .a (Int32.ofNat key)
    let s : Span := ⟨0, 5⟩
    let code := ({} : Code).addProgram ⟨"demo", t.sequences leaf s, []⟩
    s.Fits ∧ code.Finds "demo" (t.sequences leaf s) ∧ t.KeepsKey leaf code "demo" ∧
      s.size ≤ (max t.factor 2) ^ 3 ∧ s.Has 3 ∧
      t.LooksUp leaf code "demo" s 3 3 { scores := [(.index, 3)] } [] [] := by
  intro t leaf s code
  have hfit : s.Fits := Span.fits_mk.2 (by decide)
  have hfinds : code.Finds "demo" (t.sequences leaf s) := finds_addProgram t leaf s {} "demo"
  have hkeeps : t.KeepsKey leaf code "demo" := by
    rintro key x x' ⟨names, entered, x₁, hstep, hentered, hends⟩
    cases hstep
    cases hentered
    cases reaches_nil hends
    have hset : (x.scores.set .a (Int32.ofNat key)).get? .index = x.scores.get? .index :=
      Scores.get?_set_of_ne (by decide) _ _
    unfold Store.read
    rw [hset]
  have hsize : s.size ≤ (max t.factor 2) ^ 3 := by decide
  have hlooks := (looksUp_of_finds t leaf s hfit hfinds hkeeps (by decide) hsize).2.2
  exact ⟨hfit, hfinds, hkeeps, hsize, by decide, hlooks 3 _ [] [] rfl⟩

end DispatchTree

end WasmPack
