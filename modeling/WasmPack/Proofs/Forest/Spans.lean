/-
  WasmPack.Proofs.Forest.Spans

  The fragments that a piece of code leads to.  Its calls span a list of
  fragments: each fragment that is called, with those that its own code spans
  behind it.  So the list shows the calls of fragments as trees, and says how
  often each of them is called, as long as no number stands in it twice.
-/
import WasmPack.Proofs.Closed.Mentions
import WasmPack.Proofs.Compile.Fragments

namespace WasmPack

/-! ## Calls of fragments -/

/-- The number of the fragment that is called by a symbol. -/
def Symbol.fragment? : Symbol → Option UInt32
  | .fragment i => some i
  | _ => none

/-- The fragments that a command calls, behind conditions or not. -/
def Command.fragments (c : Command) : List UInt32 := c.callees.filterMap Symbol.fragment?

@[simp] theorem Command.fragments_guarded (c : Command) (g : Modifier) :
    (c.guarded g).fragments = c.fragments := by
  rw [fragments, callees_guarded, fragments]

/-- The calls of fragments in commands, in their order. -/
def fragmentCalls (cs : List Command) : List UInt32 := cs.flatMap Command.fragments

section Calls

variable {c : Command} {cs ds : List Command} {i : UInt32}

@[simp] theorem fragmentCalls_nil : fragmentCalls [] = [] := rfl

@[simp] theorem fragmentCalls_cons : fragmentCalls (c :: cs) = c.fragments ++ fragmentCalls cs :=
  rfl

@[simp] theorem fragmentCalls_append :
    fragmentCalls (cs ++ ds) = fragmentCalls cs ++ fragmentCalls ds :=
  List.flatMap_append

theorem fragmentCalls_flatten {css : List (List Command)} :
    fragmentCalls css.flatten = css.flatMap fragmentCalls := by
  rw [fragmentCalls, List.flatten_eq_flatMap, List.flatMap_assoc]
  rfl

theorem fragmentCalls_eq_nil : fragmentCalls cs = [] ↔ ∀ c ∈ cs, c.fragments = [] :=
  List.flatMap_eq_nil_iff

theorem fragmentCalls_flatMap_eq_nil {α : Type} {xs : List α} {f : α → List Command}
    (h : ∀ x ∈ xs, fragmentCalls (f x) = []) : fragmentCalls (xs.flatMap f) = [] :=
  List.flatMap_assoc.trans (List.flatMap_eq_nil_iff.2 h)

/-- The calls of fragments but one. -/
def callsOfOthers (i : UInt32) (cs : List Command) : List UInt32 :=
  (fragmentCalls cs).filter (· ≠ i)

theorem mem_callsOfOthers {j : UInt32} :
    j ∈ callsOfOthers i cs ↔ j ∈ fragmentCalls cs ∧ j ≠ i := by
  simp [callsOfOthers]

/-- Code that does not call the fragment has calls of others only. -/
theorem callsOfOthers_of_not_mem (h : i ∉ fragmentCalls cs) :
    callsOfOthers i cs = fragmentCalls cs :=
  List.filter_eq_self.2 fun _ hj => decide_eq_true fun heq => h (heq ▸ hj)

end Calls

namespace Compile

/-- The fragment of a loop calls what the code of the loop calls, and then itself. -/
theorem fragmentCalls_loopCommands (id depth : Nat) (code : Block) :
    fragmentCalls (loopCommands id depth code) =
      fragmentCalls code.commands ++ [UInt32.ofNat id] := by
  have hself : ((callFragment id).ifIn .brDepth (.exact (Int32.ofNat (depth + 1)))).fragments =
      [UInt32.ofNat id] := Command.fragments_guarded _ _
  have hreset : (Command.setScore .brDepth noBranch).fragments = [] := rfl
  simp only [loopCommands, fragmentCalls_append, fragmentCalls_cons, fragmentCalls_nil, hself,
    hreset, List.nil_append, List.append_nil]

/-! ## Spans -/

/-- The pool has a fragment that runs some code: the commands of the fragment are the code, or the
    fragment is a loop around it.  The parameter says which loops there are, by their depth. -/
inductive HasBody (L : Nat → Block → Prop) (pool : Pool) (id : Nat) : List Command → Prop where
  | plain {cs : List Command} (h : pool[id]? = some cs) : HasBody L pool id cs
  | loop {depth : Nat} {code : Block} (h : pool[id]? = some (loopCommands id depth code))
      (hloop : L (depth + 1) code) : HasBody L pool id code.commands

/-- Calls span fragments of the pool: those that are called, each with what its code spans behind
    it. -/
inductive Spans (L : Nat → Block → Prop) (pool : Pool) : List UInt32 → List Nat → Prop where
  | nil : Spans L pool [] []
  | call {id : Nat} {cs : List Command} {calls : List UInt32} {inner outer : List Nat}
      (hbody : HasBody L pool id cs) (hinner : Spans L pool (fragmentCalls cs) inner)
      (houter : Spans L pool calls outer) :
      Spans L pool (UInt32.ofNat id :: calls) (id :: (inner ++ outer))

variable {L : Nat → Block → Prop} {pool pool' : Pool} {id : Nat} {cs : List Command}
  {calls calls' : List UInt32} {ids ids' front back : List Nat} {i : UInt32}

namespace HasBody

theorem lt (h : HasBody L pool id cs) : id < pool.size := by
  cases h with
  | plain h => exact (Array.getElem?_eq_some_iff.1 h).1
  | loop h => exact (Array.getElem?_eq_some_iff.1 h).1

theorem mono (h : HasBody L pool id cs) (hpool : pool'[id]? = pool[id]?) :
    HasBody L pool' id cs := by
  cases h with
  | plain h => exact .plain (hpool.trans h)
  | loop h hloop => exact .loop (hpool.trans h) hloop

/-- Besides what its code calls, a fragment calls at most itself. -/
theorem exists_commands (h : HasBody L pool id cs) : ∃ all, pool[id]? = some all ∧
    (∀ i ∈ fragmentCalls cs, i ∈ fragmentCalls all) ∧
    ∀ i ∈ fragmentCalls all, i ∈ fragmentCalls cs ∨ i = UInt32.ofNat id := by
  cases h with
  | plain h => exact ⟨_, h, fun i hi => hi, fun i hi => .inl hi⟩
  | loop h =>
    refine ⟨_, h, fun i hi => ?_, fun i hi => ?_⟩
    · rw [fragmentCalls_loopCommands]
      exact List.mem_append_left _ hi
    · rw [fragmentCalls_loopCommands] at hi
      exact (List.mem_append.1 hi).imp_right List.mem_singleton.1

/-- Code that does not call its fragment is all that the fragment calls besides itself. -/
theorem callsOfOthers_eq (h : HasBody L pool id cs) (hself : UInt32.ofNat id ∉ fragmentCalls cs) :
    ∃ all, pool[id]? = some all ∧ callsOfOthers (UInt32.ofNat id) all = fragmentCalls cs := by
  cases h with
  | plain h => exact ⟨_, h, callsOfOthers_of_not_mem hself⟩
  | loop h =>
    refine ⟨_, h, ?_⟩
    rw [← callsOfOthers_of_not_mem hself, callsOfOthers, fragmentCalls_loopCommands,
      List.filter_append, callsOfOthers]
    simp

end HasBody

namespace Spans

theorem append (h : Spans L pool calls ids) (h' : Spans L pool calls' ids') :
    Spans L pool (calls ++ calls') (ids ++ ids') := by
  induction h with
  | nil => exact h'
  | call hbody hinner houter _ ih =>
    rw [List.cons_append, List.cons_append, List.append_assoc]
    exact .call hbody hinner ih

/-- What is spanned stays so as long as the fragments that matter keep their commands. -/
theorem mono (h : Spans L pool calls ids) (hpool : ∀ id ∈ ids, pool'[id]? = pool[id]?) :
    Spans L pool' calls ids := by
  induction h with
  | nil => exact .nil
  | call hbody _ _ ihinner ihouter =>
    obtain ⟨hid, hrest⟩ := List.forall_mem_cons.1 hpool
    obtain ⟨hinner, houter⟩ := List.forall_mem_append.1 hrest
    exact .call (hbody.mono hid) (ihinner hinner) (ihouter houter)

/-- What is spanned is there. -/
theorem lt (h : Spans L pool calls ids) : ∀ id ∈ ids, id < pool.size := by
  induction h with
  | nil => exact fun _ hid => nomatch hid
  | call hbody _ _ ihinner ihouter =>
    exact List.forall_mem_cons.2 ⟨hbody.lt, List.forall_mem_append.2 ⟨ihinner, ihouter⟩⟩

/-- What is spanned stays so when fragments are added. -/
theorem extend (h : Spans L pool calls ids) (hext : Extends pool pool') :
    Spans L pool' calls ids :=
  h.mono fun id hid => hext.kept id (h.lt id hid)

/-- A single fragment that runs code with calls of its own. -/
theorem single (hbody : HasBody L pool id cs) (h : Spans L pool (fragmentCalls cs) ids) :
    Spans L pool [UInt32.ofNat id] (id :: ids) := by
  have hcall := Spans.call hbody h .nil
  rwa [List.append_nil] at hcall

/-- What is called is spanned. -/
theorem exists_of_mem_calls (h : Spans L pool calls ids) (hi : i ∈ calls) :
    ∃ id ∈ ids, UInt32.ofNat id = i := by
  induction h with
  | nil => cases hi
  | call _ _ _ _ ih =>
    obtain rfl | hi := List.mem_cons.1 hi
    · exact ⟨_, List.mem_cons_self, rfl⟩
    · obtain ⟨id, hid, rfl⟩ := ih hi
      exact ⟨id, List.mem_cons_of_mem _ (List.mem_append_right _ hid), rfl⟩

/-- Behind a fragment that is spanned stand those that its code spans. -/
theorem split (h : Spans L pool calls ids) (hids : ids = front ++ id :: back) :
    ∃ cs inner rest, HasBody L pool id cs ∧ Spans L pool (fragmentCalls cs) inner ∧
      back = inner ++ rest := by
  induction h generalizing front back with
  | nil => simp at hids
  | @call id' cs calls inner outer hbody hinner houter ihinner ihouter =>
    rcases List.cons_eq_append_iff.1 hids with ⟨rfl, heq⟩ | ⟨_, rfl, htail⟩
    · cases heq
      exact ⟨cs, inner, outer, hbody, hinner, rfl⟩
    -- The fragment stands among those of the first one's code, or among those called after it.
    · rcases List.append_eq_append_iff.1 htail with ⟨mid, -, houter'⟩ | ⟨mid, hinner', hback⟩
      · exact ihouter houter'
      · rcases List.cons_eq_append_iff.1 hback with ⟨rfl, houter'⟩ | ⟨mid, rfl, rfl⟩
        · exact ihouter (show outer = [] ++ id :: back from houter')
        · obtain ⟨ds, inner', rest, hbody', hspans, rfl⟩ := ihinner hinner'
          exact ⟨ds, inner', rest ++ outer, hbody', hspans, List.append_assoc _ _ _⟩

/-- A fragment that is spanned has code, and this code calls only what stands behind it. -/
theorem exists_body (h : Spans L pool calls ids) (hids : ids = front ++ id :: back) :
    ∃ cs, HasBody L pool id cs ∧ ∀ i ∈ fragmentCalls cs, i ∈ back.map UInt32.ofNat := by
  obtain ⟨cs, inner, rest, hbody, hinner, rfl⟩ := h.split hids
  refine ⟨cs, hbody, fun i hi => ?_⟩
  obtain ⟨id, hid, rfl⟩ := hinner.exists_of_mem_calls hi
  exact List.mem_map_of_mem (List.mem_append_left _ hid)

/-- What a fragment that is spanned calls is spanned too. -/
theorem exists_of_mem_body {all : List Command} (h : Spans L pool calls ids) (hid : id ∈ ids)
    (hall : pool[id]? = some all) (hi : i ∈ fragmentCalls all) :
    ∃ id' ∈ ids, UInt32.ofNat id' = i := by
  obtain ⟨front, back, rfl⟩ := List.append_of_mem hid
  obtain ⟨cs, hbody, hcs⟩ := h.exists_body rfl
  obtain ⟨all', hall', -, hcalls⟩ := hbody.exists_commands
  cases hall.symm.trans hall'
  rcases hcalls i hi with hi | rfl
  · obtain ⟨id', hid', rfl⟩ := List.mem_map.1 (hcs i hi)
    exact ⟨id', List.mem_append_right _ (List.mem_cons_of_mem _ hid'), rfl⟩
  · exact ⟨id, hid, rfl⟩

end Spans

/-! ## Numbers that tell fragments apart -/

/-- The calls of other fragments in a fragment of the pool. -/
def outgoing (pool : Pool) (id : Nat) : List UInt32 :=
  callsOfOthers (UInt32.ofNat id) (pool[id]?.getD [])

section Distinct

variable (hdistinct : (ids.map UInt32.ofNat).Nodup)

include hdistinct

/-- A fragment that calls itself is a loop, and calls itself only behind the code of the loop. -/
theorem Spans.loop_of_calls_itself {all : List Command} (h : Spans L pool calls ids)
    (hid : id ∈ ids) (hall : pool[id]? = some all) (hself : UInt32.ofNat id ∈ fragmentCalls all) :
    ∃ depth code, L (depth + 1) code ∧ all = loopCommands id depth code ∧
      UInt32.ofNat id ∉ fragmentCalls code.commands := by
  obtain ⟨front, back, rfl⟩ := List.append_of_mem hid
  obtain ⟨cs, hbody, hcs⟩ := h.exists_body rfl
  rw [List.map_append, List.map_cons] at hdistinct
  have hnot : UInt32.ofNat id ∉ fragmentCalls cs := fun hcall =>
    (List.nodup_cons.1 (List.nodup_append.1 hdistinct).2.1).1 (hcs _ hcall)
  cases hbody with
  | plain h =>
    cases hall.symm.trans h
    exact absurd hself hnot
  | loop h hloop =>
    cases hall.symm.trans h
    exact ⟨_, _, hloop, rfl, hnot⟩

/-- Calls of other fragments lead from the front of the list to the back. -/
theorem Spans.idxOf_lt (h : Spans L pool calls ids) (hid : id ∈ ids) (hi : i ∈ outgoing pool id) :
    (ids.map UInt32.ofNat).idxOf (UInt32.ofNat id) < (ids.map UInt32.ofNat).idxOf i := by
  obtain ⟨front, back, rfl⟩ := List.append_of_mem hid
  obtain ⟨cs, hbody, hcs⟩ := h.exists_body rfl
  obtain ⟨all, hall, -, hcalls⟩ := hbody.exists_commands
  rw [outgoing, hall] at hi
  obtain ⟨hi, hne⟩ := mem_callsOfOthers.1 hi
  have hback := hcs i ((hcalls i hi).resolve_right hne)
  rw [List.map_append, List.map_cons] at hdistinct ⊢
  obtain ⟨-, hrest, hapart⟩ := List.nodup_append.1 hdistinct
  -- Neither number stands in front, so what counts is where they stand behind.
  have hid : UInt32.ofNat id ∉ front.map UInt32.ofNat := fun hmem =>
    hapart _ hmem _ List.mem_cons_self rfl
  have hi : i ∉ front.map UInt32.ofNat := fun hmem =>
    hapart _ hmem _ (List.mem_cons_of_mem _ hback) rfl
  rw [List.idxOf_append, List.idxOf_append, if_neg hid, if_neg hi, List.idxOf_cons_self,
    List.idxOf_cons, beq_eq_false_iff_ne.2 hne.symm]
  simp only [cond_false]
  omega

/-- **Each fragment that is spanned is called once**, by what spans it or by another fragment. -/
theorem Spans.perm (h : Spans L pool calls ids) :
    (calls ++ ids.flatMap (outgoing pool)).Perm (ids.map UInt32.ofNat) := by
  induction h with
  | nil => exact .nil
  | @call id cs calls inner outer hbody hinner houter ihinner ihouter =>
    rw [List.map_cons, List.map_append, List.nodup_cons] at hdistinct
    obtain ⟨hid, hrest⟩ := hdistinct
    obtain ⟨hdistinner, hdistouter, -⟩ := List.nodup_append.1 hrest
    -- If the code called its own fragment, the code would span that fragment a second time.
    have hself : UInt32.ofNat id ∉ fragmentCalls cs := by
      intro hcall
      obtain ⟨id', hid', heq⟩ := hinner.exists_of_mem_calls hcall
      exact hid (List.mem_append_left _ (List.mem_map.2 ⟨id', hid', heq⟩))
    obtain ⟨all, hall, hothers⟩ := hbody.callsOfOthers_eq hself
    have hout : outgoing pool id = fragmentCalls cs := by
      rw [outgoing, hall, Option.getD_some, hothers]
    rw [List.flatMap_cons, List.flatMap_append, hout, List.map_cons, List.map_append,
      List.cons_append]
    refine .cons _ ?_
    calc calls ++ (fragmentCalls cs ++ (inner.flatMap (outgoing pool) ++
            outer.flatMap (outgoing pool)))
        = calls ++ ((fragmentCalls cs ++ inner.flatMap (outgoing pool)) ++
            outer.flatMap (outgoing pool)) := by rw [List.append_assoc (fragmentCalls cs)]
      _ |>.Perm ((fragmentCalls cs ++ inner.flatMap (outgoing pool)) ++
            (calls ++ outer.flatMap (outgoing pool))) := List.perm_append_comm_assoc ..
      _ |>.Perm _ := (ihinner hdistinner).append (ihouter hdistouter)

end Distinct

end Compile

end WasmPack
