/-
  WasmPack.Proofs.Paging.Growth

  How memories get pages.  Pages of zeros are appended one by one while a
  register counts down.
-/
import WasmPack.Proofs.Compile.Spaces
import WasmPack.Proofs.Paging.Window

namespace WasmPack

open Machine Compile

/-- A page of zeros. -/
def Page.zero : Page := Vector.replicate pageSize 0

namespace Paging

variable {P : Paging} {id : MemoryId} {pages : List Page}

/-- The pages of a memory, if it is there. -/
def pages? (P : Paging) (id : MemoryId) : Option (List Page) := (P.mems id.ns)[id.index]?

/-- More pages of zeros for a memory. -/
def grow (P : Paging) (id : MemoryId) (count : Nat) : Paging :=
  P.setPages id ((P.pages? id).getD [] ++ List.replicate count Page.zero)

theorem pages?_setPages_self (h : P.pages? id = some pages) (pages' : List Page) :
    (P.setPages id pages').pages? id = some pages' := by
  unfold pages? at h
  obtain ⟨hlt, -⟩ := List.getElem?_eq_some_iff.1 h
  unfold pages? setPages setMems
  simp [hlt]

theorem setPages_setPages (P : Paging) (id : MemoryId) (pages pages' : List Page) :
    (P.setPages id pages).setPages id pages' = P.setPages id pages' := by
  unfold setPages setMems
  simp

theorem grow_of_pages? (h : P.pages? id = some pages) (count : Nat) :
    P.grow id count = P.setPages id (pages ++ List.replicate count Page.zero) := by
  rw [grow, h, Option.getD_some]

theorem pages?_grow (h : P.pages? id = some pages) (count : Nat) :
    (P.grow id count).pages? id = some (pages ++ List.replicate count Page.zero) := by
  rw [grow_of_pages? h]
  exact pages?_setPages_self h _

/-- Growing by no pages changes nothing. -/
theorem grow_zero (h : P.pages? id = some pages) : P.grow id 0 = P := by
  have hset : (P.mems id.ns).set id.index pages = P.mems id.ns := by
    obtain ⟨hlt, hget⟩ := List.getElem?_eq_some_iff.1 h
    rw [← hget, List.set_getElem_self]
  rw [grow_of_pages? h, List.replicate_zero, List.append_nil, setPages, setMems, hset,
    Function.update_eq_self]

/-- Growing in two steps is growing at once. -/
theorem grow_grow (h : P.pages? id = some pages) (m n : Nat) :
    (P.grow id m).grow id n = P.grow id (m + n) := by
  rw [grow_of_pages? (pages?_grow h m), grow_of_pages? h, grow_of_pages? h, setPages_setPages,
    List.append_assoc, List.replicate_append_replicate]

end Paging

namespace Machine

variable {code : Code} {P : Paging} {σ : State} {m : PagedMemory} {pages : List Page}
  {tags : TagTable} {id : MemoryId} {count : Nat} {rs : List Register} {J : State → Prop}

/-- Appending a page of zeros. -/
theorem steps_addPage (h : P.ShownBy σ) (hi : id.index < 2 ^ 31) (hp : P.pages? id = some pages)
    (hz : σ.cells sharedId "zero_page" = some zeroPage) :
    ∃ v, Steps tags id.ns (.appendFrom (pagesPath (UInt32.ofNat id.index)) zeroPagePath) σ []
        (σ.setCell (ownId id.ns) "mems" v) ∧
      (P.grow id 1).ShownBy (σ.setCell (ownId id.ns) "mems" v) := by
  obtain ⟨hlt, -⟩ := List.getElem?_eq_some_iff.1 hp
  have hlookup : σ.lookup id.ns zeroPagePath = some (.stored zeroPage) := by
    show (σ.cells sharedId "zero_page").bind _ = _
    rw [hz]
    rfl
  have hcell := h.mems_cell (by
    intro hnil
    rw [hnil] at hlt
    cases hlt)
  have happend := Nbt.append_listOf_deep (Nbt.position?_ofNat hi hlt) hp
    (Nbt.append_listOf (f := Page.toNbt) (x := Page.zero))
  have hstep : Steps tags id.ns (.appendFrom (pagesPath (UInt32.ofNat id.index)) zeroPagePath) σ []
      _ := .plain (.appendFrom _ _) (performs_appendFrom ⟨_, _, rfl⟩ hlookup
    (performs_append rfl hcell happend))
  refine ⟨_, hstep, ?_⟩
  rw [Paging.grow_of_pages? hp]
  exact h.setMems

theorem allows_atLeast_one {r : Register} (h : σ.regs r = some (Int32.ofNat count))
    (hcount : count < 2 ^ 31) : σ.allows (.ifIn r (.atLeast 1)) = some (decide (0 < count)) := by
  have hone : (1 : Int32).toInt = 1 := rfl
  rw [allows_ifIn h]
  simp only [Range.contains, Range.atLeast, Option.all_some, Option.all_none, Bool.and_true]
  simp only [Int32.le_iff_toInt_le, Int32.toInt_ofNat_of_lt hcount, hone]
  congr 1
  exact decide_eq_decide.2 (by omega)

/-- Counting down. -/
theorem ofNat_succ_add_neg_one (count : Nat) : Int32.ofNat (count + 1) + -1 = Int32.ofNat count := by
  have hone : (-1 : Int32) = Int32.ofInt (-1) := rfl
  rw [← Int32.ofInt_eq_ofNat, ← Int32.ofInt_eq_ofNat, hone, ← Int32.ofInt_add]
  congr 1
  omega

/-- What growing a memory relies on. -/
structure Growable (code : Code) (P : Paging) (id : MemoryId) (σ : State) : Prop where
  shown : P.ShownBy σ
  index : id.index < 2 ^ 31
  zeroPage : σ.cells sharedId "zero_page" = some Compile.zeroPage
  growLoop : code.function ((Symbol.memory (UInt32.ofNat id.index) .growLoop).qualifiedName id.ns) =
    .ok ⟨id.ns, growLoopCommands (UInt32.ofNat id.index)⟩

section
variable (hJ : Unpaged J)
include hJ

/-- The loop appends as many pages as the register says. -/
theorem endsWith_growLoop (hσ : J σ) (hg : Growable code P id σ) (hp : P.pages? id = some pages)
    (hcount : count < 2 ^ 31) (hpos : 0 < count) (ha : σ.regs .a = some (Int32.ofNat count)) :
    EndsWith code [⟨id.ns, growLoopCommands (UInt32.ofNat id.index)⟩] [.a] σ J
      (.ok (P.grow id count)) := by
  -- The induction is on the number of pages that are still to come.
  induction count generalizing P σ pages with
  | zero => exact absurd hpos (by decide)
  | succ count ih =>
    obtain ⟨v, hstep, h₁⟩ := steps_addPage hg.shown hg.index hp hg.zeroPage
    let σ₁ := σ.setCell (ownId id.ns) "mems" v
    have ha₁ : σ₁.regs .a = some (Int32.ofNat (count + 1)) := ha
    let σ₂ := σ₁.setReg .a (Int32.ofNat count)
    have hcountdown : Steps code.tags id.ns (.addScore .a (-1)) σ₁ [] σ₂ := by
      have hadd : Steps code.tags id.ns (.addScore .a (-1)) σ₁ [] _ := steps_addScore ha₁
      rwa [ofNat_succ_add_neg_one] at hadd
    have ha₂ : σ₂.regs .a = some (Int32.ofNat count) := by simp [σ₂]
    have hk₂ : KeepsBut [.a] σ₁ σ₂ := (KeepsBut.refl _ _).setReg (by simp)
    have hσ₂ : J σ₂ := hJ.setReg _ (hJ.setPages _ _ hσ)
    refine .plain hstep ((KeepsBut.refl _ _).setCell (by simp)) (.plain hcountdown hk₂ ?_)
    have hz₂ : σ₂.cells sharedId "zero_page" = some zeroPage := by
      show σ₁.cells sharedId "zero_page" = _
      rw [State.cells_setCell, if_neg fun hk => absurd hk.2 (by decide), hg.zeroPage]
    have hg₂ : Growable code (P.grow id 1) id σ₂ := ⟨h₁.setReg, hg.index, hz₂, hg.growLoop⟩
    have hguard := allows_atLeast_one ha₂ (by omega)
    by_cases hzero : 0 < count
    · have hrest := ih hσ₂ hg₂ (Paging.pages?_grow hp 1) (by omega) hzero ha₂
      rw [Paging.grow_grow hp, Nat.add_comm 1] at hrest
      exact .guarded (by rw [hguard, decide_eq_true hzero]) (.call hg.growLoop hrest)
    · obtain rfl : count = 0 := by omega
      exact .blocked (by rw [hguard, decide_eq_false hzero]) (.nil hg₂.shown hσ₂)

/-- Growing without a check appends as many pages as the register says. -/
theorem endsWith_growUnchecked (hσ : J σ) (hg : Growable code P id σ)
    (hp : P.pages? id = some pages) (hcount : count < 2 ^ 31)
    (ha : σ.regs .a = some (Int32.ofNat count)) :
    EndsWith code [⟨id.ns, growUncheckedCommands (UInt32.ofNat id.index)⟩] [.a] σ J
      (.ok (P.grow id count)) := by
  have hguard := allows_atLeast_one ha hcount
  by_cases hpos : 0 < count
  · exact .guarded (by rw [hguard, decide_eq_true hpos])
      (.call hg.growLoop (endsWith_growLoop hJ hσ hg hp hcount hpos ha))
  · obtain rfl : count = 0 := by omega
    rw [Paging.grow_zero hp]
    exact .blocked (by rw [hguard, decide_eq_false hpos]) (.nil hg.shown hσ)

end

end Machine

/-! ## First pages -/

/-- The pages that a memory begins with. -/
def firstPages : MemoryEntry → List Page
  | .defined limits => List.replicate limits.min.toNat Page.zero
  | .imported _ => []

/-- The code has what the first pages of the memories from an index on need. -/
def Machine.Code.Begins (code : Code) (ns : String) (start : Nat) (entries : List MemoryEntry) :
    Prop :=
  ∀ (k : Nat) (limits : Wasm.Limits), entries[k]? = some (.defined limits) → LimitsOk limits ∧
    (effectiveMax limits ≠ 0 → code.HasMemory ⟨⟨ns, start + k⟩, effectiveMax limits⟩)

namespace Machine

variable {code : Code} {P : Paging} {σ : State} {ns : String} {entry : MemoryEntry}
  {entries : List MemoryEntry} {start : Nat} {tags : TagTable} {m : PagedMemory}
  {J : State → Prop}

theorem Code.HasMemory.growLoop (h : code.HasMemory m) : code.function
    ((Symbol.memory (UInt32.ofNat m.id.index) .growLoop).qualifiedName m.id.ns) =
      .ok ⟨m.id.ns, growLoopCommands (UInt32.ofNat m.id.index)⟩ :=
  h.operation (by simp [pagedSequences])

theorem Code.HasMemory.growUnchecked (h : code.HasMemory m) : code.function
    ((Symbol.memory (UInt32.ofNat m.id.index) .growUnchecked).qualifiedName m.id.ns) =
      .ok ⟨m.id.ns, growUncheckedCommands (UInt32.ofNat m.id.index)⟩ :=
  h.operation (by simp [pagedSequences])

theorem toInt32_eq_ofNat (n : UInt32) : n.toInt32 = Int32.ofNat n.toNat :=
  Int32.toBitVec_inj.1 (by simp)

/-- Making room for a memory. -/
theorem steps_addMemory (h : P.ShownBy σ)
    (hcell : σ.cells (ownId ns) "mems" = some (memsNbt (P.mems ns))) :
    ∃ v, Steps tags ns (.append memoriesPath .emptyList) σ [] (σ.setCell (ownId ns) "mems" v) ∧
      (P.setMems ns (P.mems ns ++ [[]])).ShownBy (σ.setCell (ownId ns) "mems" v) := by
  have happend : Nbt.append [] .emptyList (memsNbt (P.mems ns)) =
      (some true, memsNbt (P.mems ns ++ [[]])) := Nbt.append_listOf (x := [])
  have hstep : Steps tags ns (.append memoriesPath .emptyList) σ [] _ :=
    .plain (.append _ _) (performs_append rfl hcell happend)
  exact ⟨_, hstep, h.setMems⟩

section
variable (hJ : Unpaged J)
include hJ

/-- A memory gets its first pages when room is made for it. -/
theorem endsWith_initMemory (hσ : J σ) (hbegins : code.Begins ns (P.mems ns).length [entry])
    (h : P.ShownBy σ) (hcell : σ.cells (ownId ns) "mems" = some (memsNbt (P.mems ns)))
    (hlen : (P.mems ns).length < 2 ^ 31) (hz : σ.cells sharedId "zero_page" = some zeroPage) :
    EndsWith code [⟨ns, initMemory (UInt32.ofNat (P.mems ns).length) entry⟩] [.a] σ J
      (.ok (P.setMems ns (P.mems ns ++ [firstPages entry]))) := by
  obtain ⟨v, hstep, h₁⟩ := steps_addMemory h hcell
  let σ₁ := σ.setCell (ownId ns) "mems" v
  have hσ₁ : J σ₁ := hJ.setPages _ _ hσ
  refine .plain hstep ((KeepsBut.refl _ _).setCell (by simp)) ?_
  cases entry with
  | imported source => exact .nil h₁ hσ₁
  | defined limits =>
    obtain ⟨hok, hmemory⟩ := hbegins 0 limits rfl
    let id : MemoryId := ⟨ns, (P.mems ns).length⟩
    let P₁ := P.setMems ns (P.mems ns ++ [[]])
    have hpages : P₁.pages? id = some [] := by
      simp [P₁, id, Paging.pages?, Paging.setMems]
    have hgrow : P₁.grow id limits.min.toNat =
        P.setMems ns (P.mems ns ++ [firstPages (.defined limits)]) := by
      rw [Paging.grow_of_pages? hpages]
      simp [P₁, id, Paging.setPages, Paging.setMems, firstPages]
    simp only
    split
    · rename_i hfirst
      rw [Bool.and_eq_true, decide_eq_true_eq] at hfirst
      have hcode := hmemory (isPaged_defined.1 hfirst.1)
      rw [Nat.add_zero] at hcode
      have hcount : limits.min.toNat < 2 ^ 31 := by
        have hmin := hok.min
        have hle := hok.max
        omega
      let σ₂ := σ₁.setReg .a (Int32.ofNat limits.min.toNat)
      have hset : Steps code.tags ns (.setScore .a limits.min.toInt32) σ₁ [] σ₂ := by
        rw [toInt32_eq_ofNat]
        exact steps_setScore
      have hz₂ : σ₂.cells sharedId "zero_page" = some zeroPage := by
        show σ₁.cells sharedId "zero_page" = _
        rw [State.cells_setCell, if_neg fun hk => absurd hk.2 (by decide), hz]
      have hg : Growable code P₁ id σ₂ :=
        ⟨h₁.setReg, hlen, hz₂, hcode.growLoop⟩
      have hends := endsWith_growUnchecked hJ (hJ.setReg _ hσ₁) hg hpages hcount (by simp)
      rw [hgrow] at hends
      exact .plain hset ((KeepsBut.refl _ _).setReg (by simp))
        (.call hcode.growUnchecked hends)
    · rename_i hfirst
      -- Without pages of its own, or without a first page, the memory begins empty.
      have hmin : limits.min.toNat = 0 := by
        have hle := hok.min
        by_contra hne
        refine hfirst ?_
        rw [Bool.and_eq_true, decide_eq_true_eq, UInt32.lt_iff_toNat_lt]
        refine ⟨isPaged_defined.2 fun hzero => ?_, Nat.pos_of_ne_zero hne⟩
        rw [hzero, UInt32.toNat_zero] at hle
        omega
      have hempty : firstPages (.defined limits) = [] := by
        rw [firstPages, hmin, List.replicate_zero]
      rw [hempty]
      exact .nil h₁ hσ₁

/-- The memories of a module get their first pages one after the other. -/
theorem endsWith_initMemories (hσ : J σ) (hbegins : code.Begins ns (P.mems ns).length entries)
    (h : P.ShownBy σ) (hcell : σ.cells (ownId ns) "mems" = some (memsNbt (P.mems ns)))
    (hlen : (P.mems ns).length + entries.length ≤ 2 ^ 31)
    (hz : σ.cells sharedId "zero_page" = some zeroPage) :
    EndsWith code [⟨ns, (entries.zipIdx (P.mems ns).length).flatMap fun (entry, i) =>
      initMemory (UInt32.ofNat i) entry⟩] [.a] σ J
      (.ok (P.setMems ns (P.mems ns ++ entries.map firstPages))) := by
  induction entries generalizing P σ with
  | nil =>
    have hself : P.setMems ns (P.mems ns ++ [].map firstPages) = P := by
      simp [Paging.setMems]
    rw [hself]
    exact .nil h hσ
  | cons entry entries ih =>
    rw [List.length_cons] at hlen
    -- The paging once the first memory has its pages, which the rest of the memories start from.
    let P₁ := P.setMems ns (P.mems ns ++ [firstPages entry])
    have hmems₁ : P₁.mems ns = P.mems ns ++ [firstPages entry] := by
      simp [P₁, Paging.setMems]
    have hlen₁ : (P₁.mems ns).length = (P.mems ns).length + 1 := by
      rw [hmems₁, List.length_append, List.length_singleton]
    have hfirst : code.Begins ns (P.mems ns).length [entry] := by
      intro k limits hk
      cases k with
      | zero => exact hbegins 0 limits hk
      | succ k => cases hk
    have hrest : code.Begins ns (P₁.mems ns).length entries := by
      intro k limits hk
      have hnext := hbegins (k + 1) limits hk
      rwa [hlen₁, Nat.add_assoc, Nat.add_comm 1 k]
    have hall : P.setMems ns (P.mems ns ++ (entry :: entries).map firstPages) =
        P₁.setMems ns (P₁.mems ns ++ entries.map firstPages) := by
      rw [hmems₁]
      simp [P₁, Paging.setMems]
    rw [List.zipIdx_cons, List.flatMap_cons, hall, ← hlen₁]
    refine EndsWith.seq (f := fun Q => .ok (Q.setMems ns (Q.mems ns ++ entries.map firstPages)))
      (endsWith_initMemory hJ hσ hfirst h hcell (by omega) hz) fun Q σ₁ hQ h₁ hk₁ hσ₁ => ?_
    cases hQ
    have hz₁ : σ₁.cells sharedId "zero_page" = some zeroPage := by
      rw [hk₁.cells _ _ (by decide) (by decide) (by decide), hz]
    exact ih hσ₁ hrest h₁ (h₁.mems_cell (by simp [P₁, hmems₁])) (by omega) hz₁

end

end Machine

end WasmPack
