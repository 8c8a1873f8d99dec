/-
  WasmPack.Proofs.Execution.Tags

  The members of tags once programs have been loaded.  A machine puts names into
  its tags one by one, in front or behind, as it comes upon them; a pack collects
  entries, which stand in the order of the tags' names and come to be with their
  first member.  The two agree for all programs in every order, and both have the
  members that can be listed tag by tag.
-/
import WasmPack.Machine.Basic
import WasmPack.Pack.Contents

namespace WasmPack

open Machine Pack

variable {code : Code} {ps : List Program} {p : Program} {name : String}

namespace Pack

/-- The names of the sequences of a program that pass a test. -/
def namesWhere (p : Program) (test : Symbol → Bool) : List String :=
  (p.sequences.filter fun s => test s.symbol).map p.nameOf

/-- Whether the sequence prepares the library. -/
def isLibraryLoad (s : Symbol) : Bool := s = .routine .load

/-- Whether the sequence prepares a program. -/
def isInit (s : Symbol) : Bool := s = .init

/-- The members of the tags of a pack.  What prepares the library runs first, then what prepares
    the programs, in their order. -/
def tagTable (programs : List Program) : TagTable :=
  { swapOut := programs.flatMap (·.tagMembers .swapOut)
    load := (programs.flatMap fun p => namesWhere p isLibraryLoad).reverse ++
      programs.flatMap fun p => namesWhere p isInit ++ p.tagMembers .load }

end Pack

/-! ## One program -/

namespace TagTable

variable {t : TagTable}

/-- What joins a tag stands behind its members; other tags are left alone. -/
theorem members_add (t : TagTable) (name : String) (tag other : Tag) :
    (t.add name tag).members other = t.members other ++ if tag = other then [name] else [] := by
  cases tag <;> cases other <;> simp [add, members]

/-- The contributions of a program stand behind what the tag has, in their order. -/
theorem members_foldl_add {ns : String} (tag : Tag) (entries : List (Tag × Symbol)) :
    (entries.foldl (fun t (tag, s) => t.add (s.qualifiedName ns) tag) t).members tag =
      t.members tag ++ (entries.filter fun (other, _) => other = tag).map
        fun (_, s) => s.qualifiedName ns := by
  induction entries generalizing t with
  | nil => exact (List.append_nil _).symm
  | cons entry entries ih =>
    rw [List.foldl_cons, ih, members_add]
    by_cases h : entry.1 = tag
    · rw [List.filter_cons_of_pos (by simpa using h), if_pos h]
      simp
    · rw [List.filter_cons_of_neg (by simpa using h), if_neg h]
      simp

/-- No sequence joins the tag that stores the window by being there. -/
theorem swapOut_addSequence (s : Symbol) : (t.addSequence name s).swapOut = t.swapOut := by
  unfold addSequence
  split <;> rfl

/-- What prepares the library comes to stand in front, what prepares a program behind. -/
theorem load_addSequence (s : Symbol) : (t.addSequence name s).load =
    (if isLibraryLoad s then [name] else []) ++ t.load ++ if isInit s then [name] else [] := by
  unfold addSequence
  split
  · simp [isLibraryLoad, isInit]
  · simp [isLibraryLoad, isInit, add]
  · rename_i hload hinit
    have hl : isLibraryLoad s = false := by
      rw [isLibraryLoad, decide_eq_false_iff_not]
      exact hload
    have hi : isInit s = false := by
      rw [isInit, decide_eq_false_iff_not]
      exact hinit
    simp [hl, hi]

theorem swapOut_foldl_addSequence (ss : List Sequence) :
    (ss.foldl (fun t s => t.addSequence (p.nameOf s) s.symbol) t).swapOut = t.swapOut := by
  induction ss generalizing t with
  | nil => rfl
  | cons s ss ih => exact ih.trans (swapOut_addSequence s.symbol)

/-- Each library that is loaded goes in front of those before it, so their order is turned
    around; the preparations of programs keep theirs. -/
theorem load_foldl_addSequence (ss : List Sequence) :
    (ss.foldl (fun t s => t.addSequence (p.nameOf s) s.symbol) t).load =
      ((ss.filter fun s => isLibraryLoad s.symbol).map p.nameOf).reverse ++ t.load ++
        (ss.filter fun s => isInit s.symbol).map p.nameOf := by
  induction ss generalizing t with
  | nil => simp
  | cons s ss ih =>
    rw [List.foldl_cons, ih, load_addSequence]
    by_cases hl : isLibraryLoad s.symbol <;> by_cases hi : isInit s.symbol <;> simp [hl, hi]

theorem swapOut_addProgram : (t.addProgram p).swapOut = t.swapOut ++ p.tagMembers .swapOut :=
  (members_foldl_add .swapOut p.tags).trans
    (congrArg (· ++ _) (swapOut_foldl_addSequence p.sequences))

theorem load_addProgram : (t.addProgram p).load =
    (namesWhere p isLibraryLoad).reverse ++ t.load ++
      (namesWhere p isInit ++ p.tagMembers .load) := by
  rw [← List.append_assoc]
  exact (members_foldl_add .load p.tags).trans
    (congrArg (· ++ _) (load_foldl_addSequence p.sequences))

end TagTable

/-! ## Programs one after another -/

namespace Machine

/-- Sequences are loaded as functions; the tags they join are the program's matter. -/
theorem tags_foldl_addSequence (ss : List Sequence) :
    (ss.foldl (Code.addSequence p) code).tags = code.tags := by
  induction ss generalizing code with
  | nil => rfl
  | cons s ss ih => exact ih

theorem tags_addProgram : (code.addProgram p).tags = code.tags.addProgram p := by
  show TagTable.addProgram _ p = _
  rw [tags_foldl_addSequence]

/-- The members of the tag that stores the window. -/
theorem swapOut_foldl_addProgram : (ps.foldl Code.addProgram code).tags.swapOut =
    code.tags.swapOut ++ ps.flatMap (·.tagMembers .swapOut) := by
  induction ps generalizing code with
  | nil => exact (List.append_nil _).symm
  | cons p ps ih =>
    rw [List.foldl_cons, ih, tags_addProgram, TagTable.swapOut_addProgram, List.flatMap_cons,
      List.append_assoc]

/-- The members of the tag that runs when a pack is loaded. -/
theorem load_foldl_addProgram : (ps.foldl Code.addProgram code).tags.load =
    (ps.flatMap fun p => namesWhere p isLibraryLoad).reverse ++ code.tags.load ++
      ps.flatMap fun p => namesWhere p isInit ++ p.tagMembers .load := by
  induction ps generalizing code with
  | nil => simp
  | cons p ps ih =>
    rw [List.foldl_cons, ih, tags_addProgram, TagTable.load_addProgram, List.flatMap_cons,
      List.flatMap_cons, List.reverse_append]
    simp only [List.append_assoc]

theorem code_foldl_load (ps : List Program) (machine : Machine) :
    (ps.foldl Machine.load machine).code = ps.foldl Code.addProgram machine.code := by
  induction ps generalizing machine with
  | nil => rfl
  | cons p ps ih => exact ih _

end Machine

namespace Pack

/-- A machine that has loaded programs and the pack of the programs have the same tags. -/
theorem tags_foldl_addProgram (ps : List Program) :
    (ps.foldl Code.addProgram {}).tags = tagTable ps := by
  have hswapOut : (ps.foldl Code.addProgram {}).tags.swapOut = (tagTable ps).swapOut :=
    swapOut_foldl_addProgram.trans (List.nil_append _)
  have hload : (ps.foldl Code.addProgram {}).tags.load = (tagTable ps).load := by
    rw [load_foldl_addProgram, tagTable]
    exact congrArg (· ++ _) (List.append_nil _)
  cases hcode : (ps.foldl Code.addProgram {}).tags with
  | mk swapOut load =>
    rw [hcode] at hswapOut hload
    cases hswapOut
    cases hload
    rfl

/-! ## Entries -/

/-- The tags of a table that have members, with their members. -/
def entriesOf (t : TagTable) : List (Tag × List String) :=
  (Tag.all.map fun tag => (tag, t.members tag)).filter fun (_, names) => !names.isEmpty

theorem entriesOf_mk (swapOut load : List String) : entriesOf ⟨swapOut, load⟩ =
    (if swapOut = [] then [] else [(.swapOut, swapOut)]) ++
      if load = [] then [] else [(.load, load)] := by
  cases swapOut <;> cases load <;> rfl

/-- Only the tag that stores the window has a name in front of another. -/
theorem name_lt_name {tag other : Tag} : tag.name < other.name ↔ tag = .swapOut ∧ other = .load := by
  cases tag <;> cases other <;> decide

section
variable {t : TagTable} {change : List String → List String}

/-- To give members to a tag is to change its entry, or to make one in its place. -/
theorem updateEntry_swapOut (h : ∀ names, change names ≠ []) :
    updateEntry .swapOut change (entriesOf t) =
      entriesOf { t with swapOut := change t.swapOut } := by
  obtain ⟨swapOut, load⟩ := t
  rw [entriesOf_mk, entriesOf_mk, if_neg (h swapOut)]
  by_cases hs : swapOut = [] <;> by_cases hl : load = [] <;>
    simp only [hs, hl, updateEntry, name_lt_name, reduceCtorEq, and_false, and_self, if_true,
      if_false, List.nil_append, List.append_nil, List.cons_append]

theorem updateEntry_load (h : ∀ names, change names ≠ []) :
    updateEntry .load change (entriesOf t) = entriesOf { t with load := change t.load } := by
  obtain ⟨swapOut, load⟩ := t
  rw [entriesOf_mk, entriesOf_mk, if_neg (h load)]
  by_cases hs : swapOut = [] <;> by_cases hl : load = [] <;>
    simp only [hs, hl, updateEntry, name_lt_name, reduceCtorEq, false_and, and_self, if_true,
      if_false, List.nil_append, List.append_nil, List.cons_append]

/-- A member that joins a tag. -/
theorem entriesOf_add (tag : Tag) :
    entriesOf (t.add name tag) = updateEntry tag (· ++ [name]) (entriesOf t) := by
  have h : ∀ names, names ++ [name] ≠ [] := fun names => by simp
  cases tag with
  | swapOut => exact (updateEntry_swapOut h).symm
  | load => exact (updateEntry_load h).symm

theorem entriesOf_addSequence (s : Symbol) :
    entriesOf (t.addSequence name s) = enterSequence (entriesOf t) name s := by
  unfold TagTable.addSequence
  split
  · exact (updateEntry_load fun names => List.cons_ne_nil name names).symm
  · exact entriesOf_add .load
  · rw [enterSequence] <;> assumption

end

theorem entriesOf_foldl_add {ns : String} (contributions : List (Tag × Symbol)) (t : TagTable) :
    entriesOf (contributions.foldl (fun t (tag, s) => t.add (s.qualifiedName ns) tag) t) =
      contributions.foldl (fun es (tag, s) => updateEntry tag (· ++ [s.qualifiedName ns]) es)
        (entriesOf t) := by
  induction contributions generalizing t with
  | nil => rfl
  | cons contribution contributions ih =>
    rw [List.foldl_cons, List.foldl_cons, ih, entriesOf_add]

theorem entriesOf_foldl_addSequence (ss : List Sequence) (t : TagTable) :
    entriesOf (ss.foldl (fun t s => t.addSequence (p.nameOf s) s.symbol) t) =
      ss.foldl (fun es s => enterSequence es (p.nameOf s) s.symbol) (entriesOf t) := by
  induction ss generalizing t with
  | nil => rfl
  | cons s ss ih => rw [List.foldl_cons, List.foldl_cons, ih, entriesOf_addSequence]

theorem entriesOf_addProgram (t : TagTable) (p : Program) :
    entriesOf (t.addProgram p) = enterProgram (entriesOf t) p := by
  rw [TagTable.addProgram, entriesOf_foldl_add, entriesOf_foldl_addSequence, enterProgram]

/-- The entries of a pack are those of the table that a machine comes to have. -/
theorem entriesOf_foldl_addProgram (ps : List Program) (code : Code) :
    entriesOf (ps.foldl Code.addProgram code).tags =
      ps.foldl enterProgram (entriesOf code.tags) := by
  induction ps generalizing code with
  | nil => rfl
  | cons p ps ih => rw [List.foldl_cons, List.foldl_cons, ih, tags_addProgram, entriesOf_addProgram]

/-- The entries of a pack, tag by tag. -/
theorem tagEntries_eq (ps : List Program) : tagEntries ps = entriesOf (tagTable ps) := by
  rw [← tags_foldl_addProgram, entriesOf_foldl_addProgram]
  rfl

/-! ## Fresh machines -/

/-- A library that is loaded once is the only thing that stands in front. -/
theorem load_tagTable_of_countP
    (h : (ps.flatMap (·.sequences)).countP (fun s => isLibraryLoad s.symbol) = 1) :
    (tagTable ps).load = (Symbol.routine .load).qualifiedName sharedNamespace ::
      ps.flatMap fun p => namesWhere p isInit ++ p.tagMembers .load := by
  -- Whatever the namespace of its program, the name is the one of the library's routine.
  have hname : ∀ q ∈ ps.flatMap (fun p => namesWhere p isLibraryLoad),
      q = (Symbol.routine .load).qualifiedName sharedNamespace := by
    intro q hq
    obtain ⟨p, -, hq⟩ := List.mem_flatMap.1 hq
    obtain ⟨s, hs, rfl⟩ := List.mem_map.1 hq
    have hsymbol : s.symbol = .routine .load := of_decide_eq_true (List.mem_filter.1 hs).2
    rw [Program.nameOf, hsymbol]
    rfl
  have hlength : (ps.flatMap fun p => namesWhere p isLibraryLoad).length = 1 := by
    rw [← h, List.countP_flatMap, List.length_flatMap]
    congr 1
    refine List.map_congr_left fun p _ => ?_
    rw [namesWhere, List.length_map, Function.comp_apply, List.countP_eq_length_filter]
  obtain ⟨q, hq⟩ := List.length_eq_one_iff.1 hlength
  rw [tagTable, hq, hname q (hq ▸ List.mem_singleton_self q)]
  rfl

/-- Loading programs into a fresh machine leaves the tags that the pack of the programs has: the
    same tags with the same members in the same order.  A library that is among them once is
    prepared before everything else, and the programs are prepared in their order. -/
theorem tagEntries_eq_of_load (limit : Nat) (ps : List Program) :
    let tags := (ps.foldl Machine.load { gasLimit := limit }).code.tags
    tags = tagTable ps ∧
    tagEntries ps = ((Tag.all.map fun tag => (tag, tags.members tag)).filter
      fun (_, names) => !names.isEmpty) ∧
    ((ps.flatMap (·.sequences)).countP (fun s => isLibraryLoad s.symbol) = 1 →
      ∃ rest, tags.load = (Symbol.routine .load).qualifiedName sharedNamespace :: rest ∧
        (ps.flatMap fun p => namesWhere p isInit).Sublist rest) := by
  intro tags
  have htags : tags = tagTable ps := by
    show (ps.foldl Machine.load { gasLimit := limit }).code.tags = _
    rw [code_foldl_load]
    exact tags_foldl_addProgram ps
  refine ⟨htags, htags ▸ tagEntries_eq ps, fun hone => ?_⟩
  refine ⟨_, htags ▸ load_tagTable_of_countP hone, ?_⟩
  -- What a program gives to the tag by name stands behind its own preparation.
  clear hone htags tags
  induction ps with
  | nil => exact List.Sublist.refl _
  | cons p ps ih => exact (List.sublist_append_left _ _).append ih

/-- A program, the library and another program, in this order. -/
theorem tagEntries_eq_of_load_library_second :
    let ps : List Program := [⟨"app", [⟨.init, []⟩], []⟩,
      ⟨"masm", [⟨.routine .load, []⟩], []⟩,
      ⟨"lib", [⟨.init, []⟩, ⟨.swapOutAll, []⟩], [(.swapOut, .swapOutAll)]⟩]
    tagEntries ps = [(.swapOut, ["lib:__internal/mems/swap_out"]),
      (.load, ["masm:__internal/load", "app:__init", "lib:__init"])] ∧
    ∃ rest, (ps.foldl Machine.load { gasLimit := 0 }).code.tags.load =
      (Symbol.routine .load).qualifiedName sharedNamespace :: rest ∧
        (ps.flatMap fun p => namesWhere p isInit).Sublist rest := by
  intro ps
  exact ⟨by decide, (tagEntries_eq_of_load 0 ps).2.2 (by decide)⟩

end Pack

end WasmPack
