/-
  WasmPack.Proofs.Paging.Basic

  What the memories of all modules look like in a state: the window with its
  mark, and the pages of every module.  The operations on memories are described
  by what they do to this picture; the rest of the state they leave alone, up to
  the registers they work with.
-/
import Mathlib.Logic.Function.Basic
import WasmPack.Compile.Paging
import WasmPack.Proofs.State.Lists
import WasmPack.Proofs.State.Steps

namespace WasmPack

open Machine Compile

/-! ## Pages and memories -/

/-- A page of memory. -/
abbrev Page := Vector Int8 pageSize

namespace Page

/-- The page as a value. -/
def toNbt (page : Page) : Nbt := .bytes page.toArray

/-- The byte at an offset. -/
def byte (page : Page) (offset : Nat) : Int8 := page[offset]?.getD 0

/-- Another byte at an offset. -/
def setByte (page : Page) (offset : Nat) (b : Int8) : Page := page.setIfInBounds offset b

theorem byte_setByte_self {page : Page} {offset : Nat} {b : Int8} (h : offset < pageSize) :
    (page.setByte offset b).byte offset = b := by
  simp [byte, setByte, h]

theorem byte_setByte_of_ne {page : Page} {i j : Nat} {b : Int8} (h : i ≠ j) :
    (page.setByte i b).byte j = page.byte j := by
  simp [byte, setByte, Vector.getElem?_setIfInBounds_ne, h]

end Page

/-- The window: its bytes, the mark of the memory that it belongs to, and the number of the page
    in it. -/
structure Window where
  data : Page
  owner : String
  page : Int32

/-- The window as a value. -/
def Window.toNbt (w : Window) : Nbt :=
  .compound [("data", w.data.toNbt), ("id", .text w.owner), ("page", .int w.page)]

/-- A memory: the module that defines it, and its index there. -/
structure MemoryId where
  ns : String
  index : Nat
deriving DecidableEq

/-- What the window says when it belongs to the memory. -/
def MemoryId.mark (m : MemoryId) : String := m.ns ++ ":" ++ toString m.index

/-- The window, and the pages of the memories of every module. -/
structure Paging where
  window : Option Window
  mems : String → List (List Page)

namespace Paging

/-- A page of a memory. -/
def page? (P : Paging) (m : MemoryId) (page : Nat) : Option Page :=
  (P.mems m.ns)[m.index]?.bind (·[page]?)

/-- Other memories for a module. -/
def setMems (P : Paging) (ns : String) (mems : List (List Page)) : Paging :=
  { P with mems := Function.update P.mems ns mems }

/-- Other pages for a memory. -/
def setPages (P : Paging) (m : MemoryId) (pages : List Page) : Paging :=
  P.setMems m.ns ((P.mems m.ns).set m.index pages)

/-- Other bytes for a page of a memory. -/
def setPage (P : Paging) (m : MemoryId) (page : Nat) (data : Page) : Paging :=
  P.setPages m (((P.mems m.ns)[m.index]?.getD []).set page data)

/-- Another window. -/
def setWindow (P : Paging) (w : Window) : Paging := { P with window := some w }

@[simp] theorem window_setPages (P : Paging) (m : MemoryId) (pages : List Page) :
    (P.setPages m pages).window = P.window := rfl

@[simp] theorem window_setPage (P : Paging) (m : MemoryId) (page : Nat) (data : Page) :
    (P.setPage m page data).window = P.window := rfl

@[simp] theorem mems_setWindow (P : Paging) (w : Window) : (P.setWindow w).mems = P.mems := rfl

@[simp] theorem window_setWindow (P : Paging) (w : Window) : (P.setWindow w).window = some w := rfl

@[simp] theorem page?_setWindow (P : Paging) (w : Window) (m : MemoryId) (page : Nat) :
    (P.setWindow w).page? m page = P.page? m page := rfl

end Paging

/-! ## Pages in a state -/

/-- The pages of the memories of a module as a value. -/
def memsNbt (mems : List (List Page)) : Nbt := Nbt.listOf (Nbt.listOf Page.toNbt) mems

/-- The storage of a module. -/
def ownId (ns : String) : String := Storage.own.id ns

theorem ownId_inj {ns ns' : String} : ownId ns = ownId ns' ↔ ns = ns' :=
  String.append_left_inj ":__internal"

/-- The state shows the memories so.  Where a module has no list of memories yet, it has no
    memories. -/
structure Paging.ShownBy (P : Paging) (σ : State) : Prop where
  window : σ.cells sharedId "mem" = P.window.map Window.toNbt
  mems : ∀ ns, σ.cells (ownId ns) "mems" = some (memsNbt (P.mems ns)) ∨
    σ.cells (ownId ns) "mems" = none ∧ P.mems ns = []

/-- Nothing has changed but some registers, and values that have to do with paging. -/
structure KeepsBut (rs : List Register) (σ σ' : State) : Prop where
  regs : ∀ r, r ∉ rs → σ'.regs r = σ.regs r
  cells : ∀ id k, k ≠ "mem" → k ≠ "mems" → k ≠ "tmp" → σ'.cells id k = σ.cells id k

namespace KeepsBut

variable {rs qs : List Register} {σ σ₁ σ' : State} {r : Register} {n : Int32} {id k : String}
  {v : Nbt}

theorem refl (rs : List Register) (σ : State) : KeepsBut rs σ σ :=
  ⟨fun _ _ => rfl, fun _ _ _ _ _ => rfl⟩

theorem trans (h : KeepsBut rs σ σ₁) (h' : KeepsBut rs σ₁ σ') : KeepsBut rs σ σ' :=
  ⟨fun r hr => (h'.regs r hr).trans (h.regs r hr),
    fun id k hm hs ht => (h'.cells id k hm hs ht).trans (h.cells id k hm hs ht)⟩

theorem mono (h : KeepsBut rs σ σ') (hsub : rs ⊆ qs) : KeepsBut qs σ σ' :=
  ⟨fun r hr => h.regs r fun hrs => hr (hsub hrs), h.cells⟩

theorem setReg (h : KeepsBut rs σ σ') (hr : r ∈ rs) : KeepsBut rs σ (σ'.setReg r n) := by
  refine ⟨fun q hq => ?_, h.cells⟩
  have hqr : q ≠ r := by
    rintro rfl
    exact hq hr
  rw [State.regs_setReg, if_neg hqr]
  exact h.regs q hq

theorem setCell (h : KeepsBut rs σ σ') (hk : k = "mem" ∨ k = "mems" ∨ k = "tmp") :
    KeepsBut rs σ (σ'.setCell id k v) := by
  refine ⟨h.regs, fun i j hm hs ht => ?_⟩
  have hjk : j ≠ k := by
    rintro rfl
    tauto
  rw [State.cells_setCell, if_neg fun hij => hjk hij.2]
  exact h.cells i j hm hs ht

end KeepsBut

namespace Paging.ShownBy

variable {P : Paging} {σ : State} {r : Register} {n : Int32} {w : Window} {ns : String}
  {m : MemoryId} {page : Nat} {id k : String} {v : Nbt}

/-! ## Changes elsewhere -/

theorem setReg (h : P.ShownBy σ) : P.ShownBy (σ.setReg r n) := ⟨h.window, h.mems⟩

theorem setCell (h : P.ShownBy σ) (hm : k ≠ "mem") (hs : k ≠ "mems") :
    P.ShownBy (σ.setCell id k v) := by
  refine ⟨?_, fun ns => ?_⟩
  · rw [State.cells_setCell, if_neg fun hk => hm hk.2.symm]
    exact h.window
  · rw [State.cells_setCell, if_neg fun hk => hs hk.2.symm]
    exact h.mems ns

/-- A state that agrees where pages lie shows the same. -/
theorem congr {σ' : State} (h : P.ShownBy σ)
    (hm : σ'.cells sharedId "mem" = σ.cells sharedId "mem")
    (hs : ∀ ns, σ'.cells (ownId ns) "mems" = σ.cells (ownId ns) "mems") : P.ShownBy σ' := by
  refine ⟨hm.trans h.window, fun ns => ?_⟩
  rw [hs ns]
  exact h.mems ns

/-! ## Reading the window -/

theorem window_cell (h : P.ShownBy σ) (hw : P.window = some w) :
    σ.cells sharedId "mem" = some w.toNbt := by
  rw [h.window, hw]
  rfl

theorem lookup_windowId (h : P.ShownBy σ) (hw : P.window = some w) :
    σ.lookup ns windowId = some (.stored (.text w.owner)) := by
  show (σ.cells sharedId "mem").bind _ = _
  rw [h.window_cell hw]
  rfl

theorem lookup_windowPage (h : P.ShownBy σ) (hw : P.window = some w) :
    σ.lookup ns windowPage = some (.stored (.int w.page)) := by
  show (σ.cells sharedId "mem").bind _ = _
  rw [h.window_cell hw]
  rfl

theorem lookup_windowData (h : P.ShownBy σ) (hw : P.window = some w) :
    σ.lookup ns windowData = some (.stored w.data.toNbt) := by
  show (σ.cells sharedId "mem").bind _ = _
  rw [h.window_cell hw]
  rfl

/-- Without a window there is nothing to look at in it. -/
theorem lookup_windowId_none (h : P.ShownBy σ) (hw : P.window = none) :
    σ.lookup ns windowId = none := by
  show (σ.cells sharedId "mem").bind _ = _
  rw [h.window, hw]
  rfl

/-! ## Changing the window -/

theorem setWindow (h : P.ShownBy σ) : (P.setWindow w).ShownBy (σ.setCell sharedId "mem" w.toNbt) := by
  refine ⟨?_, fun ns => ?_⟩
  · rw [State.cells_setCell, if_pos ⟨rfl, rfl⟩]
    rfl
  · rw [State.cells_setCell, if_neg fun hk => absurd hk.2 (by decide)]
    exact h.mems ns

/-! ## Pages -/

theorem lookup_mems (h : P.ShownBy σ) (segments : List Segment) (hs : segments ≠ []) :
    (σ.cells (ownId ns) "mems").bind (fun v => v.lookup segments) =
      (memsNbt (P.mems ns)).lookup segments := by
  obtain hc | ⟨hc, hnil⟩ := h.mems ns
  · rw [hc]
    rfl
  · rw [hc, hnil]
    cases segments with
    | nil => exact absurd rfl hs
    | cons segment rest =>
      cases segment with
      | key k => rfl
      | index i => exact (Nbt.lookup_listOf_none (by simp [Nbt.position?])).symm

/-- A page of a memory lies where its path leads. -/
theorem lookup_page (h : P.ShownBy σ) (hi : m.index < 2 ^ 31) (hp : page < 2 ^ 31) :
    σ.lookup m.ns (pagePath (UInt32.ofNat m.index) page) =
      (P.page? m page).map fun data => .stored data.toNbt := by
  show (σ.cells (ownId m.ns) "mems").bind (fun v =>
    v.lookup [.index (Int32.ofNat m.index), .index (Int32.ofNat page)]) = _
  rw [h.lookup_mems _ (by simp), memsNbt, page?]
  cases hpages : (P.mems m.ns)[m.index]? with
  | none =>
    exact Nbt.lookup_listOf_none
      (Nbt.position?_ofNat_none hi (List.getElem?_eq_none_iff.1 hpages))
  | some pages =>
    obtain ⟨hlt, -⟩ := List.getElem?_eq_some_iff.1 hpages
    rw [Nbt.lookup_listOf (Nbt.position?_ofNat hi hlt) hpages, Option.bind_some]
    cases hdata : pages[page]? with
    | none =>
      exact Nbt.lookup_listOf_none
        (Nbt.position?_ofNat_none hp (List.getElem?_eq_none_iff.1 hdata))
    | some data =>
      obtain ⟨hlt', -⟩ := List.getElem?_eq_some_iff.1 hdata
      rw [Nbt.lookup_listOf (Nbt.position?_ofNat hp hlt') hdata]
      rfl

theorem mems_cell (h : P.ShownBy σ) (hne : P.mems ns ≠ []) :
    σ.cells (ownId ns) "mems" = some (memsNbt (P.mems ns)) := by
  obtain hc | ⟨-, hnil⟩ := h.mems ns
  · exact hc
  · exact absurd hnil hne

/-- The state shows other memories of a module. -/
theorem setMems (h : P.ShownBy σ) {mems : List (List Page)} :
    (P.setMems ns mems).ShownBy (σ.setCell (ownId ns) "mems" (memsNbt mems)) := by
  refine ⟨?_, fun ns' => ?_⟩
  · rw [State.cells_setCell, if_neg fun hk => absurd hk.2 (by decide)]
    exact h.window
  · rw [State.cells_setCell, Paging.setMems]
    by_cases hns : ns' = ns
    · subst hns
      rw [if_pos ⟨rfl, rfl⟩]
      exact .inl (by simp)
    · rw [if_neg fun hk => hns (ownId_inj.1 hk.1)]
      simp only [Function.update_of_ne hns]
      exact h.mems ns'

end Paging.ShownBy

end WasmPack
