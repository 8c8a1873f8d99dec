/-
  WasmPack.Proofs.Access.Contents

  Memories as they are seen from outside: how many pages each of them has, and
  the bytes in these pages.

  The window and the lists of pages carry such contents.  Whichever page an access
  asks for, they carry the same contents afterwards, whether the page has been
  loaded, is one that the memory cannot have, or is missing.  A byte that is
  written then, and pages that are appended, change them as one would expect.
-/
import WasmPack.Proofs.Paging.Bytes
import WasmPack.Proofs.Sizes.Growth

namespace WasmPack

open Machine Compile

/-! ## Contents -/

/-- How many pages memories have, and the bytes at their addresses.  Those at addresses in other
    pages do not matter. -/
structure Contents where
  size : MemoryId → Nat
  byte : MemoryId → UInt32 → UInt8

namespace Contents

/-- The bytes at the addresses in pages. -/
def bytes (C : Contents) : Bytes := fun id address =>
  if pageOf address < C.size id then some (C.byte id address) else none

/-- Another byte at an address of a memory. -/
def set (C : Contents) (id : MemoryId) (address : UInt32) (b : UInt8) : Contents :=
  { C with byte := Function.update C.byte id (Function.update (C.byte id) address b) }

/-- More pages of zeros for a memory. -/
def grow (C : Contents) (id : MemoryId) (count : Nat) : Contents where
  size := Function.update C.size id (C.size id + count)
  byte := Function.update C.byte id fun address =>
    if C.size id ≤ pageOf address then 0 else C.byte id address

variable {C : Contents} {id id' : MemoryId} {address : UInt32} {b : UInt8} {count : Nat}

theorem bytes_of_lt (h : pageOf address < C.size id) :
    C.bytes id address = some (C.byte id address) := if_pos h

theorem bytes_set (h : pageOf address < C.size id) :
    (C.set id address b).bytes = C.bytes.set id address b := by
  funext id' address'
  rw [Bytes.set_apply]
  unfold bytes set
  by_cases hid : id' = id
  · subst hid
    by_cases ha : address' = address
    · subst ha
      simp [h]
    · simp [ha]
  · simp [hid]

theorem bytes_grow : (C.grow id count).bytes id' address =
    if id' = id ∧ C.size id ≤ pageOf address then
      if pageOf address < C.size id + count then some 0 else none
    else C.bytes id' address := by
  unfold bytes grow
  by_cases hid : id' = id
  · subst hid
    simp only [Function.update_self, true_and]
    by_cases hsize : C.size id' ≤ pageOf address
    · simp only [if_pos hsize]
    · rw [if_neg hsize, if_neg hsize, if_pos (by omega), if_pos (by omega)]
  · simp only [Function.update_of_ne hid, hid, false_and, if_false]

end Contents

namespace Page

/-- A page of zeros has nothing else in it. -/
theorem byte_zero {offset : Nat} : Page.zero.byte offset = 0 := by
  unfold zero byte
  rw [Vector.getElem?_replicate]
  split <;> rfl

end Page

namespace Paging

variable {P Q : Paging} {w : Window} {m : PagedMemory} {ms : List PagedMemory} {page k count : Nat}
  {id : MemoryId} {data : Page} {address : UInt32} {pages : List Page} {max : UInt32}

/-! ## Numbers of pages -/

/-- How many pages the memories of a module have. -/
def lengths (P : Paging) (ns : String) : List Nat := (P.mems ns).map List.length

theorem lengths_setPage : (P.setPage id k data).lengths = P.lengths := by
  funext ns
  unfold lengths setPage setPages setMems
  by_cases hns : ns = id.ns
  · subst hns
    show (Function.update P.mems id.ns _ id.ns).map List.length = (P.mems id.ns).map List.length
    rw [Function.update_self, List.map_set, List.length_set]
    -- The list of pages is replaced by one of the same length, if it is there at all.
    refine List.ext_getElem? fun i => ?_
    rw [List.getElem?_set]
    split
    · rename_i hi
      subst hi
      rw [List.length_map, List.getElem?_map]
      cases hpages : (P.mems id.ns)[id.index]? with
      | none => rw [if_neg (by have := List.getElem?_eq_none_iff.1 hpages; omega)]; rfl
      | some pages =>
        obtain ⟨hlt, -⟩ := List.getElem?_eq_some_iff.1 hpages
        rw [if_pos hlt]
        rfl
    · rfl
  · show (Function.update P.mems id.ns _ ns).map List.length = (P.mems ns).map List.length
    rw [Function.update_of_ne hns]

/-- The memories that an access leaves behind, whether or not it misses the page. -/
def left : Upshot → Paging
  | .ok P => P
  | .error P => P

theorem lengths_store : (left (P.store w m)).lengths = P.lengths := by
  unfold store
  split
  · split
    · exact lengths_setPage
    · rfl
  · rfl

theorem lengths_flush : (left (P.flush w ms)).lengths = P.lengths := by
  induction ms generalizing P with
  | nil => rfl
  | cons m ms ih =>
    have hfirst : (left (P.storeIfOwner w m)).lengths = P.lengths := by
      unfold storeIfOwner
      split
      · exact lengths_store
      · rfl
    rw [flush_cons]
    cases hQ : P.storeIfOwner w m with
    | ok Q =>
      rw [hQ] at hfirst
      exact ih.trans hfirst
    | error Q =>
      rw [hQ] at hfirst
      exact hfirst

/-- Loading a page leaves all lists of pages as long as they are. -/
theorem lengths_swapIn : (left (P.swapIn w ms m page)).lengths = P.lengths := by
  have hload : ∀ Q : Paging, (left (Q.load w m page)).lengths = Q.lengths := by
    intro Q
    unfold load
    split
    · split <;> rfl
    · rfl
  unfold swapIn
  split
  · rfl
  · have hflush : (left (P.flush w ms)).lengths = P.lengths := lengths_flush
    cases h : P.flush w ms with
    | ok Q =>
      rw [h] at hflush
      exact (hload Q).trans hflush
    | error Q =>
      rw [h] at hflush
      exact hflush

theorem lengths_of_swapIn {o : Upshot} (h : P.swapIn w ms m page = o) :
    (left o).lengths = P.lengths := h ▸ lengths_swapIn

theorem length_of_lengths (h : Q.lengths = P.lengths) :
    (Q.pages? id).map List.length = (P.pages? id).map List.length := by
  have hlist := congrArg (·[id.index]?) (congrFun h id.ns)
  simpa [lengths, pages?] using hlist

/-- Growing a memory leaves the others as they are. -/
theorem pages?_grow_of_ne {id' : MemoryId} (h : id' ≠ id) :
    (P.grow id count).pages? id' = P.pages? id' := by
  unfold grow setPages setMems pages?
  by_cases hns : id'.ns = id.ns
  · have hindex : id.index ≠ id'.index := fun hi => h (by cases id; cases id'; simp_all)
    simp only [hns, Function.update_self, List.getElem?_set_ne hindex]
  · simp only [Function.update_of_ne hns]

/-- Growing a memory gives it pages of zeros, and leaves all others as they are. -/
theorem page?_grow {id' : MemoryId} (h : P.pages? id = some pages) :
    (P.grow id count).page? id' page =
      if id' = id ∧ pages.length ≤ page then
        if page < pages.length + count then some Page.zero else none
      else P.page? id' page := by
  by_cases hid : id' = id
  · subst hid
    have hgrown : (P.grow id' count).page? id' page =
        (pages ++ List.replicate count Page.zero)[page]? := by
      show ((P.grow id' count).pages? id').bind (·[page]?) = _
      rw [pages?_grow h]
      rfl
    have hown : P.page? id' page = pages[page]? := by
      show (P.pages? id').bind (·[page]?) = _
      rw [h]
      rfl
    rw [hgrown, hown, List.getElem?_append]
    by_cases hpage : page < pages.length
    · rw [if_pos hpage, if_neg fun h => absurd h.2 (by omega)]
    · rw [if_neg hpage, if_pos ⟨rfl, by omega⟩, List.getElem?_replicate]
      by_cases hnew : page < pages.length + count
      · rw [if_pos hnew, if_pos (by omega)]
      · rw [if_neg hnew, if_neg (by omega)]
  · rw [if_neg fun h => hid h.1]
    exact congrArg (·.bind (·[page]?)) (pages?_grow_of_ne hid)

end Paging

/-! ## Memories with contents -/

namespace Part

variable {parts : List Part} {ps : List Program} {m : PagedMemory} {id : MemoryId} {max : UInt32}

/-- A module that defines a memory has been compiled to a program with that memory. -/
theorem Defines.exists_compiled (hps : Part.Give parts ps) (hdef : Defines parts id max) :
    ∃ wasm p limits, .module id.ns wasm ∈ parts ∧ max = effectiveMax limits ∧
      ∃ c : Compiled id.ns wasm p, c.spaces.memories[id.index]? = some (.defined limits) := by
  obtain ⟨wasm, spaces, limits, hmem, hspaces, hi, hmax⟩ := hdef
  obtain ⟨p, -, hp⟩ := hps.exists_program hmem
  obtain ⟨c⟩ := Compile.exists_compiled hp
  obtain rfl : c.spaces = spaces := Except.ok.inj (c.spacesOk.symm.trans hspaces)
  exact ⟨wasm, p, limits, hmem, hmax, c, hi⟩

/-- The memories that may have pages are those that modules define as such. -/
theorem mem_allMemories_iff : m ∈ allMemories (groupsOf parts) ↔
    Defines parts m.id m.max ∧ m.max ≠ 0 := by
  rw [mem_allMemories_groupsOf]
  constructor
  · rintro ⟨part, hpart, hm⟩
    cases part with
    | library => cases hm
    | module ns wasm =>
      cases hspaces : IndexSpaces.ofModule wasm with
      | error e =>
        simp only [group, hspaces] at hm
        cases hm
      | ok spaces =>
        simp only [group, hspaces] at hm
        obtain ⟨i, limits, hi, hmax, rfl⟩ := mem_pagedMemories.1 hm
        exact ⟨⟨wasm, spaces, limits, hpart, hspaces, hi, rfl⟩, hmax⟩
  · rintro ⟨⟨wasm, spaces, limits, hpart, hspaces, hi, hmax⟩, hne⟩
    refine ⟨_, hpart, ?_⟩
    simp only [group, hspaces]
    refine mem_pagedMemories.2 ⟨m.id.index, limits, hi, hmax ▸ hne, ?_⟩
    rw [← hmax]

end Part

/-- The memories that modules define have these contents, and the window can be stored. -/
structure Paging.Carries (P : Paging) (parts : List Part) (C : Contents) (w : Window) : Prop where
  sound : P.Sound w (allMemories (groupsOf parts))
  bytes : ∀ m ∈ allMemories (groupsOf parts), P.bytes w m.id = C.bytes m.id
  length : ∀ id max, Part.Defines parts id max → (P.pages? id).map List.length = some (C.size id)
  size_le : ∀ id max, Part.Defines parts id max → C.size id ≤ max.toNat

namespace Paging.Carries

variable {P Q : Paging} {parts : List Part} {C : Contents} {w w' : Window} {m : PagedMemory}
  {page count : Nat} {address : UInt32} {data : Page} {id : MemoryId} {max : UInt32} {b : Int8}

theorem exists_pages (h : P.Carries parts C w) (hdef : Part.Defines parts id max) :
    ∃ pages, P.pages? id = some pages ∧ pages.length = C.size id :=
  Option.map_eq_some_iff.1 (h.length id max hdef)

/-- The pages of a memory are counted by its contents. -/
theorem isSome_page? (h : P.Carries parts C w) (hdef : Part.Defines parts id max) :
    (P.page? id page).isSome ↔ page < C.size id := by
  obtain ⟨pages, hpages, hlength⟩ := h.exists_pages hdef
  show ((P.pages? id).bind (·[page]?)).isSome ↔ _
  rw [hpages, ← hlength, Option.bind_some, Option.isSome_iff_ne_none, ne_eq,
    List.getElem?_eq_none_iff]
  omega

/-- What no access takes away from the memories. -/
theorem of_current (h : P.Carries parts C w) (hsound : Q.Sound w' (allMemories (groupsOf parts)))
    (hcurrent : ∀ m ∈ allMemories (groupsOf parts), Q.current w' m.id = P.current w m.id)
    (hlengths : Q.lengths = P.lengths) : Q.Carries parts C w' := by
  refine ⟨hsound, fun m hm => ?_, fun id max hdef => ?_, h.size_le⟩
  · rw [← h.bytes m hm]
    funext address
    unfold Paging.bytes
    rw [hcurrent m hm]
  · rw [← h.length id max hdef]
    exact length_of_lengths hlengths

/-- No page beyond the last one is there. -/
theorem page?_eq_none (h : P.Carries parts C w) (hdef : Part.Defines parts id max)
    (hpage : C.size id ≤ page) : P.page? id page = none := by
  rw [← Option.not_isSome_iff_eq_none, h.isSome_page? hdef]
  omega

section Access

variable (hm : m ∈ allMemories (groupsOf parts)) (h : P.Carries parts C w)

include hm h

/-- A page that is there comes into the window. -/
theorem swapIn_loads (hms : Marked (allMemories (groupsOf parts))) (hpage : page < C.size m.id) :
    ∃ Q data, P.swapIn w (allMemories (groupsOf parts)) m page = .ok Q ∧
      P.current w m.id page = some data ∧
      Q.Carries parts C ⟨data, m.id.mark, Int32.ofNat page⟩ := by
  have hthere : (P.current w m.id page).isSome := by
    rw [isSome_current]
    exact (h.isSome_page? (Part.mem_allMemories_iff.1 hm).1).2 hpage
  obtain ⟨data, hdata⟩ := Option.isSome_iff_exists.1 hthere
  obtain ⟨Q, hQ, hsound, hcurrent⟩ := exists_swapIn hms h.sound hm hdata
  exact ⟨Q, data, hQ, hdata, h.of_current hsound hcurrent (lengths_of_swapIn (o := .ok Q) hQ)⟩

/-- A page that the memory can have but has not is missed. -/
theorem swapIn_misses (hsize : C.size m.id ≤ page) (hmax : page < m.max.toNat)
    (hpage : page < 65536) :
    ∃ Q, P.swapIn w (allMemories (groupsOf parts)) m page = .error Q ∧ Q.Carries parts C w := by
  obtain ⟨Q, hQ, hsound, hcurrent⟩ := exists_swapIn_missing h.sound hm hmax hpage
    (h.page?_eq_none (Part.mem_allMemories_iff.1 hm).1 hsize)
  exact ⟨Q, hQ, h.of_current hsound hcurrent (lengths_of_swapIn (o := .error Q) hQ)⟩

/-- A page that the memory cannot have leaves the window the bytes that it has. -/
theorem swapIn_passes (hms : Marked (allMemories (groupsOf parts))) (hapart : Part.Apart parts)
    (hmax : m.max.toNat ≤ page) (hpage : page < 65536) :
    ∃ Q, P.swapIn w (allMemories (groupsOf parts)) m page = .ok Q ∧
      Q.Carries parts C ⟨w.data, m.id.mark, Int32.ofNat page⟩ := by
  have hsame : ∀ m' ∈ allMemories (groupsOf parts), m'.id = m.id → m'.max = m.max :=
    fun m' hm' hid => Part.Defines.unique hapart (hid ▸ (Part.mem_allMemories_iff.1 hm').1)
      (Part.mem_allMemories_iff.1 hm).1
  obtain ⟨Q, hQ, hsound, hcurrent⟩ := exists_swapIn_beyond hms h.sound hm hsame hmax hpage
  exact ⟨Q, hQ, h.of_current hsound hcurrent (lengths_of_swapIn (o := .ok Q) hQ)⟩

end Access

/-- What the window says when it belongs to a page tells the page. -/
theorem holds_loaded (hms : Marked (allMemories (groupsOf parts))) {m' : PagedMemory}
    (hm : m ∈ allMemories (groupsOf parts)) (hm' : m' ∈ allMemories (groupsOf parts))
    (hpage : page < 65536) {page' : Nat} :
    Holds ⟨data, m.id.mark, Int32.ofNat page⟩ m'.id page' ↔ m.id = m'.id ∧ page = page' :=
  holds_iff hpage ⟨fun hmark => hms.apart m hm m' hm' hmark, fun hid => congrArg _ hid⟩

section Writing

variable (hms : Marked (allMemories (groupsOf parts))) (hm : m ∈ allMemories (groupsOf parts))
  (h : P.Carries parts C ⟨data, m.id.mark, Int32.ofNat (pageOf address)⟩)

include hms hm h

/-- A byte that is written to the window when a page has been loaded is written to the memory. -/
theorem setWindowByte (hsize : pageOf address < C.size m.id) :
    (P.setWindowByte (offsetOf address) b).Carries parts (C.set m.id address b.toUInt8)
      ⟨data.setByte (offsetOf address) b, m.id.mark, Int32.ofNat (pageOf address)⟩ := by
  refine ⟨sound_setWindowByte h.sound, fun m' hm' => ?_, h.length, h.size_le⟩
  funext address'
  rw [Contents.bytes_set hsize]
  refine (bytes_setWindowByte h.sound
    ((h.isSome_page? (Part.mem_allMemories_iff.1 hm).1).2 hsize)
    fun page' => holds_loaded hms hm hm' (pageOf_lt address)).trans ?_
  rw [Bytes.set_apply, Bytes.set_apply, h.bytes m' hm']

/-- What is written to the window when it is only marked with a page that is not there is written
    to no memory. -/
theorem setWindowByte_beyond (hsize : C.size m.id ≤ pageOf address) :
    (P.setWindowByte (offsetOf address) b).Carries parts C
      ⟨data.setByte (offsetOf address) b, m.id.mark, Int32.ofNat (pageOf address)⟩ := by
  refine ⟨sound_setWindowByte h.sound, fun m' hm' => ?_, h.length, h.size_le⟩
  rw [← h.bytes m' hm']
  funext address'
  rw [setWindowByte_of_window h.sound.window]
  unfold Paging.bytes current
  rw [page?_setWindow]
  by_cases hholds : m.id = m'.id ∧ pageOf address = pageOf address'
  · obtain ⟨hid, hpage⟩ := hholds
    rw [← hid, ← hpage, h.page?_eq_none (Part.mem_allMemories_iff.1 hm).1 hsize]
    rfl
  · have hne : ∀ data', ¬Holds ⟨data', m.id.mark, Int32.ofNat (pageOf address)⟩ m'.id
        (pageOf address') :=
      fun _ hh => hholds ((holds_loaded hms hm hm' (pageOf_lt address)).1 hh)
    simp only [if_neg (hne _)]

end Writing

/-- A memory that gets more pages has as many more, all zero. -/
theorem grow (h : P.Carries parts C w) (hapart : Part.Apart parts)
    (hdef : Part.Defines parts id max) (hroom : C.size id + count ≤ max.toNat) :
    (P.grow id count).Carries parts (C.grow id count) w := by
  obtain ⟨pages, hpages, hlength⟩ := h.exists_pages hdef
  have hpage : ∀ id' page, (P.grow id count).page? id' page =
      if id' = id ∧ C.size id ≤ page then
        if page < C.size id + count then some Page.zero else none
      else P.page? id' page := fun id' page => hlength ▸ page?_grow hpages
  have hmax : ∀ m ∈ allMemories (groupsOf parts), m.id = id → m.max = max := fun m hm hid =>
    Part.Defines.unique hapart (hid ▸ (Part.mem_allMemories_iff.1 hm).1) hdef
  -- A new page is none that the window holds: that would be there already.
  have hnew : ∀ m ∈ allMemories (groupsOf parts), ∀ page, m.id = id → C.size id ≤ page →
      page < C.size id + count → ¬Holds w m.id page := by
    intro m hm page hid hsize hlt hholds
    have hthere := h.sound.stored m hm page (by rw [hmax m hm hid]; omega) hholds
    rw [hid, h.isSome_page? hdef] at hthere
    omega
  refine ⟨⟨h.sound.window, fun m hm page hlt hholds => ?_, fun m hm page hthere => ?_⟩,
    fun m hm => funext fun address => ?_, fun id' max' hdef' => ?_, fun id' max' hdef' => ?_⟩
  · have hthere := h.sound.stored m hm page hlt hholds
    rw [hpage]
    split
    · rename_i hnone
      rw [hnone.1, h.isSome_page? hdef] at hthere
      omega
    · exact hthere
  · rw [hpage] at hthere
    split at hthere
    · rename_i hown
      rw [hmax m hm hown.1]
      split at hthere
      · omega
      · cases hthere
    · exact h.sound.bounded m hm page hthere
  · rw [Contents.bytes_grow, ← h.bytes m hm]
    unfold Paging.bytes current
    rw [hpage]
    by_cases hown : m.id = id ∧ C.size id ≤ pageOf address
    · rw [if_pos hown, if_pos hown]
      by_cases hlt : pageOf address < C.size id + count
      · rw [if_pos hlt, if_pos hlt, Option.map_some, Option.map_some,
          if_neg (hnew m hm _ hown.1 hown.2 hlt), Page.byte_zero]
        rfl
      · rw [if_neg hlt, if_neg hlt]
        rfl
    · rw [if_neg hown, if_neg hown]
  · by_cases hid : id' = id
    · subst hid
      rw [pages?_grow hpages, Option.map_some, List.length_append, List.length_replicate, hlength]
      simp [Contents.grow]
    · rw [pages?_grow_of_ne hid, h.length id' max' hdef']
      simp [Contents.grow, hid]
  · by_cases hid : id' = id
    · subst hid
      rw [hdef'.unique hapart hdef]
      simpa [Contents.grow] using hroom
    · simpa [Contents.grow, hid] using h.size_le id' max' hdef'

end Paging.Carries

end WasmPack
