/-
  WasmPack.Proofs.Preparation.Memories

  Memories while modules are being prepared, one after the other.

  The memories of modules that are still to be prepared may be in any state.
  None of them owns the window, so none of them matters to what happens to the
  memories of the others.  A data segment is laid over the memory that it names,
  byte by byte.
-/
import WasmPack.Proofs.Access.Contents

namespace WasmPack

open Machine Compile

namespace Paging

variable {P P' Q : Paging} {D : String → Prop} {w : Window} {m : PagedMemory}
  {ms ms' : List PagedMemory} {page k : Nat} {data : Page} {id : MemoryId}

/-! ## Memories of some modules -/

/-- The window is the same, and the memories of some modules. -/
structure AgreesOn (D : String → Prop) (P Q : Paging) : Prop where
  window : P.window = Q.window
  mems : ∀ ns, D ns → P.mems ns = Q.mems ns

namespace AgreesOn

theorem mono {D' : String → Prop} (h : P.AgreesOn D Q) (hD : ∀ ns, D' ns → D ns) :
    P.AgreesOn D' Q := ⟨h.window, fun ns hns => h.mems ns (hD ns hns)⟩

theorem pages?_eq (h : P.AgreesOn D Q) (hid : D id.ns) : P.pages? id = Q.pages? id :=
  congrArg (·[id.index]?) (h.mems id.ns hid)

theorem page?_eq (h : P.AgreesOn D Q) (hid : D id.ns) : P.page? id page = Q.page? id page :=
  congrArg (·.bind (·[page]?)) (h.pages?_eq hid)

theorem setWindow (h : P.AgreesOn D Q) : (P.setWindow w).AgreesOn D (Q.setWindow w) :=
  ⟨rfl, h.mems⟩

theorem setMems (h : P.AgreesOn D Q) {ns : String} {mems : List (List Page)} :
    (P.setMems ns mems).AgreesOn (fun ns' => D ns' ∨ ns' = ns) (Q.setMems ns mems) := by
  refine ⟨h.window, fun ns' hns => ?_⟩
  show Function.update P.mems ns mems ns' = Function.update Q.mems ns mems ns'
  by_cases heq : ns' = ns
  · rw [heq, Function.update_self, Function.update_self]
  · rw [Function.update_of_ne heq, Function.update_of_ne heq]
    exact h.mems ns' (hns.resolve_right heq)

theorem setPage (h : P.AgreesOn D Q) (hid : D id.ns) :
    (P.setPage id k data).AgreesOn D (Q.setPage id k data) := by
  unfold Paging.setPage setPages
  rw [h.mems id.ns hid]
  exact h.setMems.mono fun _ => .inl

theorem setWindowByte {offset : Nat} {b : Int8} (h : P.AgreesOn D Q) :
    (P.setWindowByte offset b).AgreesOn D (Q.setWindowByte offset b) :=
  ⟨congrArg (Option.map _) h.window, h.mems⟩

/-- Storing the window into a page of one of the modules. -/
theorem store (h : P.AgreesOn D Q) (hm : D m.id.ns) (hstore : P.store w m = .ok P') :
    ∃ Q', Q.store w m = .ok Q' ∧ P'.AgreesOn D Q' := by
  unfold Paging.store at hstore ⊢
  rw [h.page?_eq hm] at hstore
  by_cases hpage : 0 ≤ w.page.toInt ∧ w.page.toInt < m.max.toNat
  · rw [if_pos hpage] at hstore ⊢
    split at hstore
    · cases hstore
      exact ⟨_, rfl, h.setPage hm⟩
    · cases hstore
  · rw [if_neg hpage] at hstore ⊢
    cases hstore
    exact ⟨Q, rfl, h⟩

/-- Storing the window, unless it belongs to a memory of another module. -/
theorem storeIfOwner (h : P.AgreesOn D Q) (hm : D m.id.ns ∨ w.owner ≠ m.id.mark)
    (hstore : P.storeIfOwner w m = .ok P') :
    ∃ Q', Q.storeIfOwner w m = .ok Q' ∧ P'.AgreesOn D Q' := by
  unfold Paging.storeIfOwner at hstore ⊢
  by_cases howner : w.owner = m.id.mark
  · rw [if_pos howner] at hstore ⊢
    exact h.store (hm.resolve_right fun hne => hne howner) hstore
  · rw [if_neg howner] at hstore ⊢
    cases hstore
    exact ⟨Q, rfl, h⟩

theorem flush (h : P.AgreesOn D Q) (hms : ∀ m ∈ ms, D m.id.ns ∨ w.owner ≠ m.id.mark)
    (hflush : P.flush w ms = .ok P') : ∃ Q', Q.flush w ms = .ok Q' ∧ P'.AgreesOn D Q' := by
  induction ms generalizing P Q with
  | nil =>
    cases hflush
    exact ⟨Q, rfl, h⟩
  | cons m ms ih =>
    rw [flush_cons] at hflush ⊢
    obtain ⟨P₁, hP₁, hflush⟩ := except_bind_eq_ok.1 hflush
    obtain ⟨Q₁, hQ₁, h₁⟩ := h.storeIfOwner (hms m List.mem_cons_self) hP₁
    rw [hQ₁]
    exact ih h₁ (fun m' hm' => hms m' (List.mem_cons_of_mem m hm')) hflush

theorem load (h : P.AgreesOn D Q) (hm : D m.id.ns) (hload : P.load w m page = .ok P') :
    ∃ Q', Q.load w m page = .ok Q' ∧ P'.AgreesOn D Q' := by
  unfold Paging.load at hload ⊢
  rw [h.page?_eq hm] at hload
  by_cases hpage : page < m.max.toNat
  · rw [if_pos hpage] at hload ⊢
    split at hload
    · cases hload
      exact ⟨_, rfl, h.setWindow⟩
    · cases hload
  · rw [if_neg hpage] at hload ⊢
    cases hload
    exact ⟨_, rfl, h.setWindow⟩

/-- Loading a page of one of the modules. -/
theorem swapIn (h : P.AgreesOn D Q) (hms : ∀ m ∈ ms, D m.id.ns ∨ w.owner ≠ m.id.mark)
    (hm : D m.id.ns) (hswap : P.swapIn w ms m page = .ok P') :
    ∃ Q', Q.swapIn w ms m page = .ok Q' ∧ P'.AgreesOn D Q' := by
  unfold Paging.swapIn at hswap ⊢
  by_cases hloaded : w.owner = m.id.mark ∧ w.page = Int32.ofNat page
  · rw [if_pos hloaded] at hswap ⊢
    cases hswap
    exact ⟨Q, rfl, h⟩
  · rw [if_neg hloaded] at hswap ⊢
    obtain ⟨P₁, hP₁, hload⟩ := except_bind_eq_ok.1 hswap
    obtain ⟨Q₁, hQ₁, h₁⟩ := h.flush hms hP₁
    rw [hQ₁]
    exact h₁.load hm hload

end AgreesOn

/-! ## Memories that do not own the window -/

theorem flush_of_not_owner (h : ∀ m ∈ ms, w.owner ≠ m.id.mark) : P.flush w ms = .ok P := by
  induction ms with
  | nil => rfl
  | cons m ms ih =>
    rw [flush_cons, storeIfOwner, if_neg (h m List.mem_cons_self)]
    exact ih fun m' hm' => h m' (List.mem_cons_of_mem m hm')

/-- They need not be asked to store it. -/
theorem swapIn_append (h : ∀ m ∈ ms', w.owner ≠ m.id.mark) :
    P.swapIn w (ms ++ ms') m page = P.swapIn w ms m page := by
  have hflush : P.flush w (ms ++ ms') = P.flush w ms := by
    rw [flush_append]
    cases hP : P.flush w ms with
    | ok Q => exact flush_of_not_owner h
    | error Q => rfl
  unfold swapIn
  rw [hflush]

end Paging

/-! ## First pages -/

/-- How many pages a memory begins with. -/
def Compile.MemoryEntry.minPages : MemoryEntry → Nat
  | .defined limits => limits.min.toNat
  | .imported _ => 0

/-- The memories of a module get their first pages, which are zero. -/
def Contents.begun (C : Contents) (ns : String) (entries : List MemoryEntry) : Contents where
  size id := if id.ns = ns then (entries[id.index]?.map (·.minPages)).getD 0 else C.size id
  byte id address := if id.ns = ns then 0 else C.byte id address

namespace Contents

variable {C : Contents} {id : MemoryId} {start : Nat} {b : UInt8} {bs : List UInt8}
  {bytes : UInt32 → UInt8}

/-- Bytes lie over others, from an address on. -/
def overlaid (start : Nat) (bs : List UInt8) (bytes : UInt32 → UInt8) : UInt32 → UInt8 :=
  fun address =>
    if start ≤ address.toNat then (bs[address.toNat - start]?).getD (bytes address)
    else bytes address

theorem overlaid_nil : overlaid start [] bytes = bytes := by
  funext address
  unfold overlaid
  split <;> rfl

/-- They can be laid down one after the other. -/
theorem overlaid_cons (h : start < 2 ^ 32) : overlaid start (b :: bs) bytes =
    overlaid (start + 1) bs (Function.update bytes (UInt32.ofNat start) b) := by
  have hstart : (UInt32.ofNat start).toNat = start := UInt32.toNat_ofNat_of_lt' h
  funext address
  unfold overlaid
  rcases Nat.lt_trichotomy address.toNat start with hlt | heq | hgt
  · have hne : address ≠ UInt32.ofNat start := fun ha => by rw [ha, hstart] at hlt; omega
    rw [if_neg (by omega), if_neg (by omega), Function.update_of_ne hne]
  · obtain rfl : address = UInt32.ofNat start := UInt32.toNat_inj.1 (heq.trans hstart.symm)
    rw [if_pos (by omega), if_neg (by omega), Function.update_self, heq, Nat.sub_self]
    rfl
  · have hne : address ≠ UInt32.ofNat start := fun ha => by rw [ha, hstart] at hgt; omega
    obtain ⟨k, hk⟩ := Nat.exists_eq_add_of_lt hgt
    rw [if_pos (by omega), if_pos (by omega), Function.update_of_ne hne, hk,
      show start + k + 1 - start = k + 1 by omega, show start + k + 1 - (start + 1) = k by omega,
      List.getElem?_cons_succ]

/-- Bytes lie over those of a memory. -/
def overlay (C : Contents) (id : MemoryId) (start : Nat) (bs : List UInt8) : Contents :=
  { C with byte := Function.update C.byte id (overlaid start bs (C.byte id)) }

theorem overlay_nil : C.overlay id start [] = C := by
  rw [overlay, overlaid_nil, Function.update_eq_self]

theorem overlay_cons (h : start < 2 ^ 32) : C.overlay id start (b :: bs) =
    (C.set id (UInt32.ofNat start) b).overlay id (start + 1) bs := by
  rw [overlay, overlaid_cons h]
  simp only [overlay, set, Function.update_self, Function.update_idem]

end Contents

namespace Paging

variable {P : Paging} {w : Window} {ns : String} {entries : List MemoryEntry} {id : MemoryId}
  {limits : Wasm.Limits} {page : Nat} {address : UInt32}

/-- The first pages of a memory that the module defines. -/
theorem pages?_first (h : entries[id.index]? = some (.defined limits)) (hns : id.ns = ns) :
    (P.setMems ns (entries.map firstPages)).pages? id =
      some (List.replicate limits.min.toNat Page.zero) := by
  show (Function.update P.mems ns (entries.map firstPages) id.ns)[id.index]? = _
  rw [hns, Function.update_self, List.getElem?_map, h]
  rfl

/-- They are pages of zeros. -/
theorem page?_first (h : entries[id.index]? = some (.defined limits)) (hns : id.ns = ns) :
    (P.setMems ns (entries.map firstPages)).page? id page =
      if page < limits.min.toNat then some Page.zero else none := by
  show ((P.setMems ns (entries.map firstPages)).pages? id).bind (·[page]?) = _
  rw [pages?_first h hns, Option.bind_some, List.getElem?_replicate]

/-- All their bytes are zero. -/
theorem bytes_first (h : entries[id.index]? = some (.defined limits)) (hns : id.ns = ns)
    (howner : w.owner ≠ id.mark) : (P.setMems ns (entries.map firstPages)).bytes w id address =
      if pageOf address < limits.min.toNat then some 0 else none := by
  have hw : ∀ page, ¬Holds w id page := fun page hholds => howner hholds.1
  unfold bytes current
  simp only [page?_first h hns, if_neg (hw _), Option.map_id']
  split
  · rw [Option.map_some, Page.byte_zero]
    rfl
  · rfl

/-- The memories of other modules stay as they are. -/
theorem pages?_setMems_of_ne {mems : List (List Page)} (hns : id.ns ≠ ns) :
    (P.setMems ns mems).pages? id = P.pages? id :=
  congrArg (·[id.index]?) (Function.update_of_ne hns ..)

end Paging

namespace Part

variable {done : List Part} {ns : String} {m : Wasm.Module} {p : Program} {x : PagedMemory}
  {id : MemoryId} {max : UInt32}

theorem Defines.names (h : Defines done id max) : Names done id.ns := by
  obtain ⟨m, spaces, limits, hm, -⟩ := h
  exact ⟨m, hm⟩

/-- No memory may have more pages than there are addresses for. -/
theorem Defines.max_le (h : Defines done id max) : max.toNat ≤ 65536 := by
  obtain ⟨m, spaces, limits, -, hspaces, hi, rfl⟩ := h
  exact (memoriesOk_ofModule hspaces _ (Array.mem_of_getElem? hi) limits rfl).max

theorem mem_allMemories_append {rest : List Part} : x ∈ allMemories (groupsOf (done ++ rest)) ↔
    x ∈ allMemories (groupsOf done) ∨ x ∈ allMemories (groupsOf rest) := by
  simp only [mem_allMemories_groupsOf, List.mem_append, or_and_right, exists_or]

theorem mem_allMemories_module (c : Compiled ns m p) :
    x ∈ allMemories (groupsOf [.module ns m]) ↔ x ∈ pagedMemories ns c.spaces.memories := by
  rw [mem_allMemories_groupsOf]
  constructor
  · rintro ⟨part, hpart, hx⟩
    rw [List.mem_singleton.1 hpart, c.group_eq] at hx
    exact hx
  · intro hx
    refine ⟨_, List.mem_singleton.2 rfl, ?_⟩
    rwa [c.group_eq]

/-- With one more module there are its memories besides. -/
theorem defines_append (c : Compiled ns m p) : Defines (done ++ [.module ns m]) id max ↔
    Defines done id max ∨ id.ns = ns ∧ ∃ limits,
      c.spaces.memories[id.index]? = some (.defined limits) ∧ max = effectiveMax limits := by
  constructor
  · rintro ⟨m', spaces, limits, hm', hspaces, hi, hmax⟩
    rcases List.mem_append.1 hm' with hm' | hm'
    · exact .inl ⟨m', spaces, limits, hm', hspaces, hi, hmax⟩
    · obtain ⟨hns, rfl⟩ := Part.module.inj (List.mem_singleton.1 hm')
      obtain rfl : spaces = c.spaces := Except.ok.inj (hspaces.symm.trans c.spacesOk)
      exact .inr ⟨hns, limits, hi, hmax⟩
  · rintro (⟨m', spaces, limits, hm', hspaces, hi, hmax⟩ | ⟨rfl, limits, hi, hmax⟩)
    · exact ⟨m', spaces, limits, List.mem_append_left _ hm', hspaces, hi, hmax⟩
    · exact ⟨m, c.spaces, limits, List.mem_append_right _ List.mem_cons_self, c.spacesOk, hi, hmax⟩

end Part

namespace Paging.Carries

variable {P Q : Paging} {done : List Part} {C : Contents} {w : Window} {ns : String}
  {m : Wasm.Module} {p : Program}

/-- Only the memories of the modules matter. -/
theorem of_agreesOn (h : P.Carries done C w) (hPQ : P.AgreesOn (Part.Names done) Q) :
    Q.Carries done C w := by
  have hpages : ∀ m ∈ allMemories (groupsOf done), ∀ page, Q.page? m.id page = P.page? m.id page :=
    fun m hm page => (hPQ.page?_eq (Part.mem_allMemories_iff.1 hm).1.names).symm
  refine ⟨⟨hPQ.window ▸ h.sound.window, fun m hm page hmax hholds => ?_,
      fun m hm page hthere => ?_⟩,
    fun m hm => ?_, fun id max hdef => ?_, h.size_le⟩
  · rw [hpages m hm]
    exact h.sound.stored m hm page hmax hholds
  · rw [hpages m hm] at hthere
    exact h.sound.bounded m hm page hthere
  · rw [← h.bytes m hm]
    funext address
    unfold Paging.bytes current
    rw [hpages m hm]
  · rw [← h.length id max hdef, hPQ.pages?_eq hdef.names]

/-- A module whose memories do not own the window gets its first pages. -/
theorem begin (h : P.Carries done C w) (c : Compiled ns m p) (hns : ¬Part.Names done ns)
    (howner : ∀ x ∈ pagedMemories ns c.spaces.memories, w.owner ≠ x.id.mark) :
    (P.setMems ns (c.spaces.memories.toList.map firstPages)).Carries (done ++ [.module ns m])
      (C.begun ns c.spaces.memories.toList) w := by
  -- The memories before are in other namespaces, so that they keep their pages; the window holds
  -- none of the new ones, so that their bytes are those of their first pages.
  have hne : ∀ {id max}, Part.Defines done id max → id.ns ≠ ns := fun hdef heq =>
    hns (heq ▸ hdef.names)
  have hold : ∀ x ∈ allMemories (groupsOf done), x.id.ns ≠ ns := fun x hx =>
    hne (Part.mem_allMemories_iff.1 hx).1
  have hcases : ∀ {x}, x ∈ allMemories (groupsOf (done ++ [.module ns m])) →
      x ∈ allMemories (groupsOf done) ∨ x ∈ pagedMemories ns c.spaces.memories := fun hx =>
    (Part.mem_allMemories_append.1 hx).imp_right (Part.mem_allMemories_module c).1
  have hkept : ∀ {id} page, id.ns ≠ ns →
      (P.setMems ns (c.spaces.memories.toList.map firstPages)).page? id page = P.page? id page :=
    fun page hid => congrArg (·.bind (·[page]?)) (pages?_setMems_of_ne hid)
  have hfirst : ∀ {x}, x ∈ pagedMemories ns c.spaces.memories → ∃ limits : Wasm.Limits,
      limits.min.toNat ≤ x.max.toNat ∧ x.id.ns = ns ∧
        c.spaces.memories.toList[x.id.index]? = some (.defined limits) := by
    intro x hx
    obtain ⟨i, limits, hi, -, rfl⟩ := mem_pagedMemories.1 hx
    have hok := memoriesOk_ofModule c.spacesOk _ (Array.mem_of_getElem? hi) limits rfl
    exact ⟨limits, hok.min, rfl, by simpa using hi⟩
  refine ⟨⟨h.sound.window, fun x hx page hmax hholds => ?_, fun x hx page hthere => ?_⟩,
    fun x hx => ?_, fun id max hdef => ?_, fun id max hdef => ?_⟩
  · rcases hcases hx with hx | hx
    · rw [hkept page (hold x hx)]
      exact h.sound.stored x hx page hmax hholds
    · exact absurd hholds.1 (howner x hx)
  · rcases hcases hx with hx | hx
    · rw [hkept page (hold x hx)] at hthere
      exact h.sound.bounded x hx page hthere
    · obtain ⟨limits, hmin, hid, hi⟩ := hfirst hx
      rw [page?_first hi hid] at hthere
      split at hthere
      · omega
      · cases hthere
  · funext address
    rcases hcases hx with hx | hx
    · have hbytes := congrFun (h.bytes x hx) address
      unfold Paging.bytes current Contents.bytes at hbytes ⊢
      rw [hkept _ (hold x hx), hbytes]
      simp only [Contents.begun, if_neg (hold x hx)]
    · obtain ⟨limits, hmin, hid, hi⟩ := hfirst hx
      rw [bytes_first hi hid (howner x hx)]
      simp only [Contents.bytes, Contents.begun, if_pos hid, hi, Option.map_some, Option.getD_some,
        MemoryEntry.minPages]
  · rcases (Part.defines_append c).1 hdef with hdef | ⟨hid, limits, hi, hmax⟩
    · rw [pages?_setMems_of_ne (hne hdef), h.length id max hdef]
      simp only [Contents.begun, if_neg (hne hdef)]
    · have hi' : c.spaces.memories.toList[id.index]? = some (.defined limits) := by simpa using hi
      rw [pages?_first hi' hid]
      simp only [Contents.begun, if_pos hid, hi', Option.map_some, Option.getD_some,
        List.length_replicate, MemoryEntry.minPages]
  · rcases (Part.defines_append c).1 hdef with hdef | ⟨hid, limits, hi, hmax⟩
    · simp only [Contents.begun, if_neg (hne hdef)]
      exact h.size_le id max hdef
    · have hi' : c.spaces.memories.toList[id.index]? = some (.defined limits) := by simpa using hi
      have hok := memoriesOk_ofModule c.spacesOk _ (Array.mem_of_getElem? hi) limits rfl
      simp only [Contents.begun, if_pos hid, hi', Option.map_some, Option.getD_some,
        MemoryEntry.minPages]
      rw [hmax]
      exact hok.min

end Paging.Carries

end WasmPack
