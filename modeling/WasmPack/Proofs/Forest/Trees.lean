/-
  WasmPack.Proofs.Forest.Trees

  Programs whose fragments grow from pieces of code.  If the pieces span all
  fragments, each in one place, and nothing else outside of fragments calls any,
  then the calls of fragments are a forest: each fragment is called in one place,
  besides the end of a loop, and is reached from one piece only.
-/
import WasmPack.Proofs.Compile.Distinct
import WasmPack.Proofs.Forest.Roots

namespace WasmPack

open Wasm Compile

/-! ## Calls in a program -/

/-- The calls of fragments in a sequence, but for those of the sequence itself. -/
def Sequence.callsOfOthers (s : Sequence) : List UInt32 :=
  (fragmentCalls s.commands).filter (s.symbol ≠ .fragment ·)

namespace Program

/-- The fragments of a program. -/
def fragments (p : Program) : List Sequence := p.sequences.filter (·.symbol.fragment?.isSome)

/-- The sequences of a program that are not fragments. -/
def proper (p : Program) : List Sequence := p.sequences.filter (·.symbol.fragment?.isNone)

/-- Commands lead to a fragment: they call it, or a fragment that they lead to does.  Calls of
    functions are not followed. -/
inductive LeadsTo (p : Program) (cs : List Command) : UInt32 → Prop where
  | call {i : UInt32} (hi : i ∈ fragmentCalls cs) : LeadsTo p cs i
  | through {i j : UInt32} {ds : List Command} (h : LeadsTo p cs i)
      (hmem : ⟨.fragment i, ds⟩ ∈ p.sequences) (hj : j ∈ fragmentCalls ds) : LeadsTo p cs j

/-- The fragments of a program grow from what the expressions of a module become: each expression
    has a piece in a sequence that is not a fragment, outside of fragments only the pieces call
    fragments, and the calls from the pieces on are trees in which every fragment has one place.
    No tag has a fragment as a member. -/
structure GrowsFrom (p : Program) (m : Module) (roots : List (List Command)) : Prop where
  pieces : List.Forall₂ (IsPiece (p.proper.map (·.commands))) m.code roots
  outside : p.proper.flatMap (fragmentCalls ·.commands) = roots.flatMap fragmentCalls
  trees : ∃ pool owned, p.fragments = fragmentSequences pool ∧
    List.Forall₂ (fun cs ids => Spans m.IsLoop pool (fragmentCalls cs) ids) roots owned ∧
    owned.flatten.Perm (List.range pool.size)
  tags : ∀ x ∈ p.tags, x.2.fragment? = none

/-- The fragments of a program, told apart by their numbers, are a forest over the pieces that the
    expressions of a module become. -/
structure IsForest (p : Program) (m : Module) (roots : List (List Command)) : Prop where
  /-- A fragment has one call site outside of itself. -/
  calledOnce : ∀ {i cs}, ⟨.fragment i, cs⟩ ∈ p.sequences →
    (p.sequences.flatMap Sequence.callsOfOthers).count i = 1
  /-- A fragment that calls itself is that of a loop, and does so once, as the last thing, while a
      branch to the depth of the loop is under way. -/
  loops : ∀ {i cs}, ⟨.fragment i, cs⟩ ∈ p.sequences → i ∈ fragmentCalls cs → ∃ d code,
    m.IsLoop d code ∧ i ∉ fragmentCalls code.commands ∧
    cs = .setScore .brDepth noBranch :: code.commands ++
      [(Command.call (.fragment i)).ifIn .brDepth (.exact (Int32.ofNat d))]
  /-- There is no other way back to a fragment. -/
  ranked : ∃ rank : UInt32 → Nat, ∀ {i cs}, ⟨.fragment i, cs⟩ ∈ p.sequences →
    ∀ j ∈ callsOfOthers i cs, rank i < rank j
  /-- A fragment is reached from one of the pieces, and from no other. -/
  reached : ∀ {i cs}, ⟨.fragment i, cs⟩ ∈ p.sequences →
    ∃! k : Nat, ∃ root, roots[k]? = some root ∧ p.LeadsTo root i

end Program

namespace Compile

variable {L : Nat → Block → Prop} {pool : Pool} {p : Program} {m : Module} {i : UInt32}
  {cs : List Command} {roots : List (List Command)} {owned : List (List Nat)} {ids : List Nat}

/-! ## Sequences of fragments -/

theorem mem_fragmentSequences : ⟨.fragment i, cs⟩ ∈ fragmentSequences pool ↔
    ∃ id, pool[id]? = some cs ∧ UInt32.ofNat id = i := by
  constructor
  · intro h
    obtain ⟨⟨ds, id⟩, hmem, heq⟩ := List.mem_map.1 h
    cases heq
    rw [List.mem_zipIdx_iff_getElem?, Array.getElem?_toList] at hmem
    exact ⟨id, hmem, rfl⟩
  · rintro ⟨id, hid, rfl⟩
    refine List.mem_map.2 ⟨(cs, id), ?_, rfl⟩
    rwa [List.mem_zipIdx_iff_getElem?, Array.getElem?_toList]

theorem mem_sequences_iff (hfragments : p.fragments = fragmentSequences pool) :
    ⟨.fragment i, cs⟩ ∈ p.sequences ↔ ∃ id, pool[id]? = some cs ∧ UInt32.ofNat id = i := by
  rw [← mem_fragmentSequences, ← hfragments, Program.fragments, List.mem_filter]
  exact (and_iff_left rfl).symm

/-- The calls of other fragments, fragment by fragment. -/
theorem flatMap_callsOfOthers :
    (fragmentSequences pool).flatMap Sequence.callsOfOthers =
      (List.range pool.size).flatMap (outgoing pool) := by
  have hnumbers : pool.toList.zipIdx.map Prod.snd = List.range pool.size := by
    rw [List.zipIdx_map_snd, List.range_eq_range', Array.length_toList]
  rw [fragmentSequences, List.flatMap_map, ← hnumbers, List.flatMap_map]
  refine List.flatMap_congr fun x hx => ?_
  rw [List.mem_zipIdx_iff_getElem?, Array.getElem?_toList] at hx
  rw [outgoing, hx, Option.getD_some, Sequence.callsOfOthers, callsOfOthers]
  refine List.filter_congr fun j _ => ?_
  simp [eq_comm]

/-- Numbers of 32 bits tell so many fragments apart. -/
theorem ofNat_inj {id id' : Nat} (hsize : pool.size ≤ 2 ^ 32) (hid : id < pool.size)
    (hid' : id' < pool.size) (h : UInt32.ofNat id = UInt32.ofNat id') : id = id' := by
  have hnat := congrArg UInt32.toNat h
  rwa [UInt32.toNat_ofNat_of_lt' (by simp only [UInt32.size]; omega),
    UInt32.toNat_ofNat_of_lt' (by simp only [UInt32.size]; omega)] at hnat

/-! ## Leading to fragments -/

/-- The calls of several pieces span what the pieces span. -/
theorem spans_flatten
    (h : List.Forall₂ (fun cs ids => Spans L pool (fragmentCalls cs) ids) roots owned) :
    Spans L pool (roots.flatMap fragmentCalls) owned.flatten := by
  induction h with
  | nil => exact .nil
  | cons hspans _ ih =>
    rw [List.flatMap_cons, List.flatten_cons]
    exact hspans.append ih

/-- What leads to the calls leads to all that they span. -/
theorem Spans.leadsTo {calls : List UInt32} (hfragments : p.fragments = fragmentSequences pool)
    (h : Spans L pool calls ids) (hcalls : ∀ i ∈ calls, p.LeadsTo cs i) :
    ∀ id ∈ ids, p.LeadsTo cs (UInt32.ofNat id) := by
  induction h with
  | nil => exact fun _ hid => nomatch hid
  | @call id body calls inner outer hbody _ _ ihinner ihouter =>
    obtain ⟨hfirst, hrest⟩ := List.forall_mem_cons.1 hcalls
    obtain ⟨all, hall, hsub, -⟩ := hbody.exists_commands
    have hmem : ⟨.fragment (UInt32.ofNat id), all⟩ ∈ p.sequences :=
      (mem_sequences_iff hfragments).2 ⟨id, hall, rfl⟩
    refine List.forall_mem_cons.2 ⟨hfirst, List.forall_mem_append.2 ⟨?_, ihouter hrest⟩⟩
    exact ihinner fun i hi => .through hfirst hmem (hsub i hi)

/-- Commands lead to nothing but what their calls span. -/
theorem Spans.exists_of_leadsTo (hfragments : p.fragments = fragmentSequences pool)
    (hsize : pool.size ≤ 2 ^ 32) (h : Spans L pool (fragmentCalls cs) ids) (hi : p.LeadsTo cs i) :
    ∃ id ∈ ids, UInt32.ofNat id = i := by
  induction hi with
  | call hi => exact h.exists_of_mem_calls hi
  | through _ hmem hj ih =>
    obtain ⟨id, hid, rfl⟩ := ih
    obtain ⟨id', hall, heq⟩ := (mem_sequences_iff hfragments).1 hmem
    have hlt := (Array.getElem?_eq_some_iff.1 hall).1
    obtain rfl := ofNat_inj hsize hlt (h.lt id hid) heq
    exact h.exists_of_mem_body hid hall hj

/-! ## Forests -/

/-- Outside of fragments no call is one of the sequence itself. -/
theorem callsOfOthers_of_proper {s : Sequence} (hs : s ∈ p.proper) :
    s.callsOfOthers = fragmentCalls s.commands := by
  refine List.filter_eq_self.2 fun j _ => decide_eq_true fun hsymbol => ?_
  have hnone := (List.mem_filter.1 hs).2
  rw [hsymbol] at hnone
  cases hnone

section Forest

variable (hfragments : p.fragments = fragmentSequences pool)
  (hspans : Spans L pool (roots.flatMap fragmentCalls) ids)
  (hids : ids.Perm (List.range pool.size))

include hfragments hids

theorem exists_of_mem_sequences (hmem : ⟨.fragment i, cs⟩ ∈ p.sequences) :
    ∃ id ∈ ids, pool[id]? = some cs ∧ UInt32.ofNat id = i := by
  obtain ⟨id, hall, heq⟩ := (mem_sequences_iff hfragments).1 hmem
  have hlt := (Array.getElem?_eq_some_iff.1 hall).1
  exact ⟨id, hids.mem_iff.2 (List.mem_range.2 hlt), hall, heq⟩

include hspans

/-- Every fragment that is called is there. -/
theorem exists_fragment (houtside : p.proper.flatMap (fragmentCalls ·.commands) =
    roots.flatMap fragmentCalls) {s : Sequence} (hs : s ∈ p.sequences)
    (hi : i ∈ fragmentCalls s.commands) : ∃ t ∈ p.sequences, t.symbol = .fragment i := by
  obtain ⟨id, hid, rfl⟩ : ∃ id ∈ ids, UInt32.ofNat id = i := by
    cases hsymbol : s.symbol.fragment? with
    | none =>
      have hproper : s ∈ p.proper := List.mem_filter.2 ⟨hs, Option.isNone_iff_eq_none.2 hsymbol⟩
      refine hspans.exists_of_mem_calls ?_
      rw [← houtside]
      exact List.mem_flatMap_of_mem hproper hi
    | some j =>
      obtain ⟨symbol, cs⟩ := s
      cases symbol with
      | fragment j' =>
        obtain ⟨id, hid, hall, -⟩ := exists_of_mem_sequences hfragments hids hs
        exact hspans.exists_of_mem_body hid hall hi
      | _ => cases hsymbol
  have hlt := hspans.lt id hid
  exact ⟨_, (mem_sequences_iff hfragments).2 ⟨id, Array.getElem?_eq_getElem hlt, rfl⟩, rfl⟩

variable (hdistinct : (ids.map UInt32.ofNat).Nodup)

include hdistinct

/-- A fragment is called in one place outside of itself. -/
theorem count_callsOfOthers (houtside : p.proper.flatMap (fragmentCalls ·.commands) =
    roots.flatMap fragmentCalls) (hmem : ⟨.fragment i, cs⟩ ∈ p.sequences) :
    (p.sequences.flatMap Sequence.callsOfOthers).count i = 1 := by
  obtain ⟨id, hid, -, rfl⟩ := exists_of_mem_sequences hfragments hids hmem
  have hproper : p.proper.flatMap Sequence.callsOfOthers = roots.flatMap fragmentCalls := by
    rw [← houtside]
    exact List.flatMap_congr fun s hs => callsOfOthers_of_proper hs
  have hsplit : (p.proper ++ p.fragments).Perm p.sequences := by
    have hperm := List.filter_append_perm (fun s : Sequence => s.symbol.fragment?.isNone) p.sequences
    simpa [Program.proper, Program.fragments] using hperm
  have hcalls : (p.sequences.flatMap Sequence.callsOfOthers).Perm (ids.map UInt32.ofNat) := by
    calc p.sequences.flatMap Sequence.callsOfOthers
        |>.Perm ((p.proper ++ p.fragments).flatMap Sequence.callsOfOthers) :=
          (hsplit.flatMap_right _).symm
      _ = roots.flatMap fragmentCalls ++ (List.range pool.size).flatMap (outgoing pool) := by
          rw [List.flatMap_append, hproper, hfragments, flatMap_callsOfOthers]
      _ |>.Perm (roots.flatMap fragmentCalls ++ ids.flatMap (outgoing pool)) :=
          (hids.flatMap_right _).symm.append_left _
      _ |>.Perm (ids.map UInt32.ofNat) := hspans.perm hdistinct
  rw [hcalls.count_eq]
  exact List.count_eq_one_of_mem hdistinct (List.mem_map_of_mem hid)

/-- Calls of other fragments lead away from the pieces. -/
theorem rank_lt (hmem : ⟨.fragment i, cs⟩ ∈ p.sequences) {j : UInt32}
    (hj : j ∈ callsOfOthers i cs) :
    (ids.map UInt32.ofNat).idxOf i < (ids.map UInt32.ofNat).idxOf j := by
  obtain ⟨id, hid, hall, rfl⟩ := exists_of_mem_sequences hfragments hids hmem
  refine hspans.idxOf_lt hdistinct hid ?_
  rwa [outgoing, hall]

end Forest

/-- Lists without an element twice, neither in one of them nor in two, have it in one place. -/
theorem eq_of_mem_of_nodup_flatten {xss : List (List Nat)} (h : xss.flatten.Nodup) {k k' x : Nat}
    {xs xs' : List Nat} (hk : xss[k]? = some xs) (hk' : xss[k']? = some xs') (hx : x ∈ xs)
    (hx' : x ∈ xs') : k = k' := by
  obtain ⟨hlt, rfl⟩ := List.getElem?_eq_some_iff.1 hk
  obtain ⟨hlt', rfl⟩ := List.getElem?_eq_some_iff.1 hk'
  have hapart := List.pairwise_iff_getElem.1 (List.nodup_flatten.1 h).2
  rcases Nat.lt_trichotomy k k' with hkk | heq | hkk
  · exact absurd hx' (hapart k k' hlt hlt' hkk hx)
  · exact heq
  · exact absurd hx (hapart k' k hlt' hlt hkk hx')

/-- A fragment is reached from the one piece that spans it. -/
theorem existsUnique_root (hfragments : p.fragments = fragmentSequences pool)
    (hsize : pool.size ≤ 2 ^ 32)
    (htrees : List.Forall₂ (fun cs ids => Spans L pool (fragmentCalls cs) ids) roots owned)
    (hnodup : owned.flatten.Nodup) {id : Nat} (hid : id ∈ owned.flatten) :
    ∃! k : Nat, ∃ root, roots[k]? = some root ∧ p.LeadsTo root (UInt32.ofNat id) := by
  obtain ⟨hlength, hspans⟩ := List.forall₂_iff_get.1 htrees
  obtain ⟨ids, hids, hid⟩ := List.mem_flatten.1 hid
  obtain ⟨k, hk, rfl⟩ := List.mem_iff_getElem.1 hids
  have hk' : k < roots.length := hlength ▸ hk
  refine ⟨k, ⟨roots[k], List.getElem?_eq_getElem hk', ?_⟩, ?_⟩
  · exact (hspans k hk' hk).leadsTo hfragments (fun i hi => .call hi) id hid
  -- Whatever leads to the fragment spans it, so it is in two of the lists unless they are one.
  · rintro j ⟨root, hroot, hleads⟩
    obtain ⟨hj, rfl⟩ := List.getElem?_eq_some_iff.1 hroot
    have hj' : j < owned.length := hlength ▸ hj
    have htree := hspans j hj hj'
    obtain ⟨id', hid', heq⟩ := htree.exists_of_leadsTo hfragments hsize hleads
    obtain rfl := ofNat_inj hsize (htree.lt id' hid') ((hspans k hk' hk).lt id hid) heq
    exact eq_of_mem_of_nodup_flatten hnodup (List.getElem?_eq_getElem hj')
      (List.getElem?_eq_getElem hk) hid' hid

end Compile

namespace Program.GrowsFrom

variable {p : Program} {m : Module} {roots : List (List Command)}

theorem allocated (h : p.GrowsFrom m roots) {s : Sequence} (hs : s ∈ p.sequences) {i : UInt32}
    (hi : i ∈ fragmentCalls s.commands) : ∃ t ∈ p.sequences, t.symbol = .fragment i := by
  obtain ⟨pool, owned, hfragments, htrees, hids⟩ := h.trees
  exact exists_fragment hfragments (spans_flatten htrees) hids h.outside hs hi

/-- **The fragments are a forest**, if there are no more of them than numbers. -/
theorem isForest (h : p.GrowsFrom m roots) (hsize : p.fragments.length ≤ 2 ^ 32) :
    p.IsForest m roots := by
  obtain ⟨pool, owned, hfragments, htrees, hids⟩ := h.trees
  have hspans := spans_flatten htrees
  have hlength : pool.size ≤ 2 ^ 32 := by
    rwa [hfragments, fragmentSequences, List.length_map, List.length_zipIdx,
      Array.length_toList] at hsize
  have hnodup : owned.flatten.Nodup := hids.nodup_iff.2 List.nodup_range
  have hdistinct : (owned.flatten.map UInt32.ofNat).Nodup :=
    hnodup.map_on fun id hid id' hid' =>
      ofNat_inj hlength (hspans.lt id hid) (hspans.lt id' hid')
  refine ⟨count_callsOfOthers hfragments hspans hids hdistinct h.outside, fun hmem hself => ?_,
    ⟨_, rank_lt hfragments hspans hids hdistinct⟩, fun hmem => ?_⟩
  · obtain ⟨id, hid, hall, rfl⟩ := exists_of_mem_sequences hfragments hids hmem
    obtain ⟨depth, code, hloop, rfl, hnot⟩ := hspans.loop_of_calls_itself hdistinct hid hall hself
    exact ⟨depth + 1, code, hloop, hnot, rfl⟩
  · obtain ⟨id, hid, -, rfl⟩ := exists_of_mem_sequences hfragments hids hmem
    exact existsUnique_root hfragments hlength htrees hnodup hid

end Program.GrowsFrom

end WasmPack
