/-
  WasmPack.Proofs.Paging.Window

  What loading and storing pages does to the memories.  A wanted page that is
  not in the window is loaded after the owner of the window, whichever memory
  that is, has stored its page.
-/
import WasmPack.Proofs.Compile.Program
import WasmPack.Proofs.Execution.Dispatch
import WasmPack.Proofs.Paging.Basic

namespace WasmPack

open Machine Compile

/-! ## Commands on pages -/

namespace Machine

open Paging

variable {tags : TagTable} {P : Paging} {σ : State} {w : Window} {m : MemoryId} {page : Nat}
  {data : Page} {ns : String} {r : Register} {n : Int32}

/-- Writing a field of the window. -/
theorem write_windowData : Nbt.write [.key "data"] data.toNbt w.toNbt =
    (some (decide (some w.data.toNbt ≠ some data.toNbt)), ({ w with data } : Window).toNbt) := rfl

theorem write_windowId {mark : String} : Nbt.write [.key "id"] (.text mark) w.toNbt =
    (some (decide (some (Nbt.text w.owner) ≠ some (.text mark))),
      ({ w with owner := mark } : Window).toNbt) := rfl

theorem write_windowPage : Nbt.write [.key "page"] (.int n) w.toNbt =
    (some (decide (some (Nbt.int w.page) ≠ some (.int n))),
      ({ w with page := n } : Window).toNbt) := rfl

/-- Writing a byte of the window. -/
theorem write_windowByte {i : Int32} {j : Nat} {b : Int8}
    (hp : Nbt.position? i w.data.toArray.size = some j) :
    ∃ c, Nbt.write [.key "data", .index i] (.byte b) w.toNbt =
      (some c, ({ w with data := w.data.setByte j b } : Window).toNbt) := by
  obtain ⟨c, hc⟩ := Nbt.write_bytes (b := b) hp
  refine ⟨c, ?_⟩
  rw [Window.toNbt, Nbt.write_key (by simp)]
  show ((Nbt.write [.index i] (.byte b) (.bytes w.data.toArray)).1,
    Nbt.compound (("data", (Nbt.write [.index i] (.byte b) (.bytes w.data.toArray)).2) :: _)) = _
  rw [hc]
  rfl

theorem write_windowByte_none {i : Int32} {value : Nbt}
    (hp : Nbt.position? i w.data.toArray.size = none) :
    Nbt.write [.key "data", .index i] value w.toNbt = (none, w.toNbt) := by
  rw [Window.toNbt, Nbt.write_key (by simp)]
  show ((Nbt.write [.index i] value (.bytes w.data.toArray)).1,
    Nbt.compound (("data", (Nbt.write [.index i] value (.bytes w.data.toArray)).2) :: _)) = _
  rw [Nbt.write_bytes_none hp]
  rfl

/-- Loading a page into the window. -/
theorem steps_loadPage (h : P.ShownBy σ) (hw : P.window = some w) (hi : m.index < 2 ^ 31)
    (hp : page < 2 ^ 31) (hd : P.page? m page = some data) :
    Steps tags m.ns (.setFrom windowData (pagePath (UInt32.ofNat m.index) page)) σ []
      (σ.setCell sharedId "mem" ({ w with data } : Window).toNbt) := by
  have hlookup := h.lookup_page hi hp
  rw [hd] at hlookup
  exact .plain (.setFrom _ _) (performs_setFrom ⟨_, _, rfl⟩ hlookup
    (performs_setData rfl (by simp) (h.window_cell hw) write_windowData))

/-- A page that is not there cannot be loaded. -/
theorem fails_loadPage (h : P.ShownBy σ) (hi : m.index < 2 ^ 31) (hp : page < 2 ^ 31)
    (hd : P.page? m page = none) :
    Fails σ (step tags m.ns (.setFrom windowData (pagePath (UInt32.ofNat m.index) page)))
      (.missingPath ((pagePath (UInt32.ofNat m.index) page).render m.ns)) σ := by
  have hlookup := h.lookup_page hi hp
  rw [hd] at hlookup
  exact Faults.plain (.setFrom _ _) (Fails.require ⟨_, _, rfl⟩ hlookup).bind_left

/-- Storing the window into a page. -/
theorem steps_storePage {old : Page} (h : P.ShownBy σ) (hw : P.window = some w)
    (hi : m.index < 2 ^ 31) (hp : page < 2 ^ 31) (hd : P.page? m page = some old) :
    ∃ v, Steps tags m.ns (.setFrom (pagePath (UInt32.ofNat m.index) page) windowData) σ []
        (σ.setCell (ownId m.ns) "mems" v) ∧
      (P.setPage m page w.data).ShownBy (σ.setCell (ownId m.ns) "mems" v) := by
  obtain ⟨pages, hpages, hold⟩ := Option.bind_eq_some_iff.1 hd
  obtain ⟨hlt, -⟩ := List.getElem?_eq_some_iff.1 hpages
  obtain ⟨hlt', -⟩ := List.getElem?_eq_some_iff.1 hold
  have hcell := h.mems_cell (by
    intro hnil
    rw [hnil] at hlt
    cases hlt)
  obtain ⟨b, hinner⟩ := Nbt.write_listOf (f := Page.toNbt) (y := w.data)
    (Nbt.position?_ofNat hp hlt')
  have hwrite := Nbt.write_listOf_deep (by simp) (Nbt.position?_ofNat hi hlt) hpages hinner
  have hset : P.setPage m page w.data = P.setPages m (pages.set page w.data) := by
    rw [setPage, hpages]
    rfl
  rw [hset]
  exact ⟨_, .plain (.setFrom _ _) (performs_setFrom ⟨_, _, rfl⟩ (h.lookup_windowData hw)
    (performs_setData rfl (by simp) hcell hwrite)), h.setMems⟩

/-- The window cannot be stored into a page that is not there. -/
theorem fails_storePage (h : P.ShownBy σ) (hw : P.window = some w) (hi : m.index < 2 ^ 31)
    (hp : page < 2 ^ 31) (hd : P.page? m page = none) :
    Fails σ (step tags m.ns (.setFrom (pagePath (UInt32.ofNat m.index) page) windowData))
      (.missingPath ((pagePath (UInt32.ofNat m.index) page).render m.ns)) σ := by
  -- The path leads nowhere, because the memory is not there or because it has too few pages.
  have hnone : ∀ mems, P.mems m.ns = mems → Nbt.write
      [.index (Int32.ofNat m.index), .index (Int32.ofNat page)] w.data.toNbt (memsNbt mems) =
        (none, memsNbt mems) := by
    rintro mems rfl
    rw [page?] at hd
    cases hpages : (P.mems m.ns)[m.index]? with
    | none =>
      exact Nbt.write_listOf_deep_none (by simp)
        (Nbt.position?_ofNat_none hi (List.getElem?_eq_none_iff.1 hpages))
    | some pages =>
      rw [hpages, Option.bind_some] at hd
      obtain ⟨hlt, hget⟩ := List.getElem?_eq_some_iff.1 hpages
      have hinner : Nbt.write [.index (Int32.ofNat page)] w.data.toNbt (Nbt.listOf Page.toNbt pages) =
          (none, Nbt.listOf Page.toNbt pages) := Nbt.write_listOf_none
        (Nbt.position?_ofNat_none hp (List.getElem?_eq_none_iff.1 hd))
      have hdeep := Nbt.write_listOf_deep (y := pages) (by simp) (Nbt.position?_ofNat hi hlt)
        hpages hinner
      rw [← hget, List.set_getElem_self] at hdeep
      exact hdeep
  have hfail : Fails σ (write m.ns (pagePath (UInt32.ofNat m.index) page) w.data.toNbt)
      (.missingPath ((pagePath (UInt32.ofNat m.index) page).render m.ns)) σ := by
    intro s hs
    refine hs.write_deep_none rfl (by simp) fun v hv => ?_
    obtain hc | ⟨hc, -⟩ := h.mems m.ns
    · have hvm : v = memsNbt (P.mems m.ns) := Option.some.inj (hv.symm.trans hc)
      rw [hvm]
      exact hnone _ rfl
    · cases hv.symm.trans hc
  exact Faults.plain (.setFrom _ _)
    (Fails.bind (Does.require ⟨_, _, rfl⟩ (h.lookup_windowData hw)) hfail.bind_left)

end Machine

/-! ## How runs on memories end -/

/-- What is left of the memories where a run completes, or where it misses a page. -/
abbrev Upshot := Except Paging Paging

namespace Machine

variable {code : Code} {fs outer : List Function} {rs : List Register} {σ σ₁ : State}
  {P : Paging} {o : Upshot} {ns : String} {c : Command} {cs ds rest : List Command}
  {f : Paging → Upshot} {name : String} {g : Function}

/-- Where the run ends, with or without missing a page, the state shows the memories so, and of
    the registers only some have changed. -/
def Ends (code : Code) (fs : List Function) (rs : List Register) (σ : State) : Upshot → Prop
  | .ok P => ∃ σ', Runs code fs σ (.ok ()) σ' ∧ P.ShownBy σ' ∧ KeepsBut rs σ σ'
  | .error P =>
    ∃ path σ', Runs code fs σ (.error (.missingPath path)) σ' ∧ P.ShownBy σ' ∧ KeepsBut rs σ σ'

/-- The run ends so, and where it completes, the state has a property besides. -/
def EndsWith (code : Code) (fs : List Function) (rs : List Register) (σ : State)
    (J : State → Prop) : Upshot → Prop
  | .ok P => ∃ σ', Runs code fs σ (.ok ()) σ' ∧ P.ShownBy σ' ∧ KeepsBut rs σ σ' ∧ J σ'
  | .error P => Ends code fs rs σ (.error P)

theorem Ends.mono {qs : List Register} (h : Ends code fs rs σ o) (hsub : rs ⊆ qs) :
    Ends code fs qs σ o := by
  cases o with
  | ok P =>
    obtain ⟨σ', hr, hs, hk⟩ := h
    exact ⟨σ', hr, hs, hk.mono hsub⟩
  | error P =>
    obtain ⟨path, σ', hr, hs, hk⟩ := h
    exact ⟨path, σ', hr, hs, hk.mono hsub⟩

/-- Nothing is required besides. -/
abbrev Anywhere : State → Prop := fun _ => True

namespace EndsWith

variable {J K : State → Prop}

theorem ends (h : EndsWith code fs rs σ J o) : Ends code fs rs σ o := by
  cases o with
  | ok P =>
    obtain ⟨σ', hr, hs, hk, -⟩ := h
    exact ⟨σ', hr, hs, hk⟩
  | error P => exact h

theorem nil (h : P.ShownBy σ) (hJ : J σ) : EndsWith code [⟨ns, []⟩] rs σ J (.ok P) :=
  ⟨σ, .nil, h, .refl rs σ, hJ⟩

/-- A run goes from one state to the other before it ends. -/
theorem of_runs {gs : List Function} (hk : KeepsBut rs σ σ₁)
    (hr : ∀ r σ', Runs code gs σ₁ r σ' → Runs code fs σ r σ') (h : EndsWith code gs rs σ₁ J o) :
    EndsWith code fs rs σ J o := by
  cases o with
  | ok P =>
    obtain ⟨σ', hr', hs, hk', hJ⟩ := h
    exact ⟨σ', hr _ _ hr', hs, hk.trans hk', hJ⟩
  | error P =>
    obtain ⟨path, σ', hr', hs, hk'⟩ := h
    exact ⟨path, σ', hr _ _ hr', hs, hk.trans hk'⟩

theorem plain (hs : Steps code.tags ns c σ [] σ₁) (hk : KeepsBut rs σ σ₁)
    (h : EndsWith code (⟨ns, rest⟩ :: outer) rs σ₁ J o) :
    EndsWith code (⟨ns, c :: rest⟩ :: outer) rs σ J o :=
  h.of_runs hk fun _ _ hr => .plain hs hr

theorem guarded {g : Modifier} (hg : σ.allows g = some true)
    (h : EndsWith code (⟨ns, c :: rest⟩ :: outer) rs σ J o) :
    EndsWith code (⟨ns, c.guarded g :: rest⟩ :: outer) rs σ J o :=
  h.of_runs (.refl rs σ) fun _ _ hr => .guarded hg hr

theorem blocked {g : Modifier} (hg : σ.allows g = some false)
    (h : EndsWith code (⟨ns, rest⟩ :: outer) rs σ J o) :
    EndsWith code (⟨ns, c.guarded g :: rest⟩ :: outer) rs σ J o :=
  h.of_runs (.refl rs σ) fun _ _ hr => .blocked hg hr

/-- Functions under way one behind the other. -/
theorem append {gs : List Function} (h : EndsWith code fs rs σ J o)
    (hf : ∀ P σ₁, o = .ok P → P.ShownBy σ₁ → KeepsBut rs σ σ₁ → J σ₁ →
      EndsWith code gs rs σ₁ K (f P)) :
    EndsWith code (fs ++ gs) rs σ K (o >>= f) := by
  cases o with
  | ok P =>
    obtain ⟨σ₁, hr, hs, hk, hJ⟩ := h
    exact (hf P σ₁ rfl hs hk hJ).of_runs hk fun _ _ hr' => hr.append hr'
  | error P =>
    obtain ⟨path, σ', hr, hs, hk⟩ := h
    exact ⟨path, σ', hr.append_fault, hs, hk⟩

/-- Commands in sequence. -/
theorem seq (h : EndsWith code [⟨ns, cs⟩] rs σ J o)
    (hf : ∀ P σ₁, o = .ok P → P.ShownBy σ₁ → KeepsBut rs σ σ₁ → J σ₁ →
      EndsWith code (⟨ns, ds⟩ :: outer) rs σ₁ K (f P)) :
    EndsWith code (⟨ns, cs ++ ds⟩ :: outer) rs σ K (o >>= f) := by
  cases o with
  | ok P =>
    obtain ⟨σ₁, hr, hs, hk, hJ⟩ := h
    exact (hf P σ₁ rfl hs hk hJ).of_runs hk fun _ _ hr' => hr.seq hr'
  | error P =>
    obtain ⟨path, σ', hr, hs, hk⟩ := h
    exact ⟨path, σ', hr.seq_fault, hs, hk⟩

/-- A call ends as the function that is called. -/
theorem call {symbol : Symbol} (hf : code.function (symbol.qualifiedName ns) = .ok g)
    (h : EndsWith code [g] rs σ J o) : EndsWith code [⟨ns, [.call symbol]⟩] rs σ J o := by
  cases o with
  | ok P =>
    obtain ⟨σ', hr, hs, hk, hJ⟩ := h
    exact ⟨σ', .call .call hf hr .nil, hs, hk, hJ⟩
  | error P =>
    obtain ⟨path, σ', hr, hs, hk⟩ := h
    exact ⟨path, σ', .call_fault .call hf hr, hs, hk⟩

end EndsWith

end Machine

/-! ## Loading and storing as changes of the memories -/

/-- A memory that may have pages, and how many. -/
structure PagedMemory where
  id : MemoryId
  max : UInt32
deriving DecidableEq

/-- The name of an operation on the memory. -/
def PagedMemory.operation (m : PagedMemory) (op : MemoryOp) : String :=
  (Symbol.memory (UInt32.ofNat m.id.index) op).qualifiedName m.id.ns

/-- Indices and page numbers fit into registers. -/
def PagedMemory.Fits (m : PagedMemory) : Prop := m.id.index < 2 ^ 31 ∧ m.max.toNat ≤ 65536

theorem PagedMemory.Fits.span {m : PagedMemory} (hm : m.Fits) : (pageSpan m.max).Fits := by
  have hle := hm.2
  show 0 + m.max.toNat ≤ 2 ^ 31
  omega

namespace Paging

/-- The window is stored into its page of a memory, if the memory can have that page at all. -/
def store (P : Paging) (w : Window) (m : PagedMemory) : Upshot :=
  if 0 ≤ w.page.toInt ∧ w.page.toInt < m.max.toNat then
    match P.page? m.id w.page.toInt.toNat with
    | some _ => .ok (P.setPage m.id w.page.toInt.toNat w.data)
    | none => .error P
  else .ok P

/-- The window is stored if it belongs to a memory. -/
def storeIfOwner (P : Paging) (w : Window) (m : PagedMemory) : Upshot :=
  if w.owner = m.id.mark then P.store w m else .ok P

/-- The window is stored by its owner among some memories. -/
def flush (P : Paging) (w : Window) (ms : List PagedMemory) : Upshot :=
  ms.foldlM (fun P m => P.storeIfOwner w m) P

/-- A page of a memory is loaded where the window has been stored. -/
def load (P : Paging) (w : Window) (m : PagedMemory) (page : Nat) : Upshot :=
  if page < m.max.toNat then
    match P.page? m.id page with
    | some data => .ok (P.setWindow ⟨data, m.id.mark, Int32.ofNat page⟩)
    | none => .error P
  -- No page is loaded, but the window is marked as if it had been.
  else .ok (P.setWindow ⟨w.data, m.id.mark, Int32.ofNat page⟩)

/-- A page of a memory is loaded unless it is in the window. -/
def swapIn (P : Paging) (w : Window) (ms : List PagedMemory) (m : PagedMemory) (page : Nat) :
    Upshot :=
  if w.owner = m.id.mark ∧ w.page = Int32.ofNat page then .ok P
  else do (← P.flush w ms).load w m page

variable {P Q : Paging} {w : Window} {m : PagedMemory} {ms : List PagedMemory} {page : Nat}

theorem window_of_store (h : P.store w m = .ok Q) : Q.window = P.window := by
  unfold store at h
  split at h
  · split at h
    · cases h
      rfl
    · cases h
  · cases h
    rfl

theorem window_of_storeIfOwner (h : P.storeIfOwner w m = .ok Q) : Q.window = P.window := by
  unfold storeIfOwner at h
  split at h
  · exact window_of_store h
  · cases h
    rfl

theorem flush_cons : P.flush w (m :: ms) = P.storeIfOwner w m >>= fun P => P.flush w ms := rfl

theorem flush_append {ms' : List PagedMemory} :
    P.flush w (ms ++ ms') = P.flush w ms >>= fun P => P.flush w ms' := by
  unfold flush
  rw [List.foldlM_append]

theorem window_of_flush (h : P.flush w ms = .ok Q) : Q.window = P.window := by
  induction ms generalizing P with
  | nil =>
    cases h
    rfl
  | cons m ms ih =>
    rw [flush_cons] at h
    obtain ⟨P₁, h₁, h⟩ := except_bind_eq_ok.1 h
    rw [ih h, window_of_storeIfOwner h₁]

end Paging

/-- The memory that the window is checked against last, if it is checked against a memory first and
    then against others. -/
def lastChecked (id : MemoryId) (ms : List PagedMemory) : MemoryId := ms.foldl (fun _ m => m.id) id

/-- The memory that the window is checked against last where a page is loaded: its own if the page
    is in the window already. -/
def Window.lastChecked (w : Window) (ms : List PagedMemory) (m : PagedMemory) (page : Nat) :
    MemoryId :=
  if w.owner = m.id.mark ∧ w.page = Int32.ofNat page then m.id else WasmPack.lastChecked m.id ms

/-! ## Storing the window -/

namespace Machine

variable {code : Code} {P : Paging} {σ : State} {w : Window} {m : PagedMemory}
  {ms : List PagedMemory} {ns : String} {r : Register} {rest : List Command}
  {outer : List Function} {rs : List Register} {o : Upshot}

/-- The mark of a memory in its commands. -/
theorem ownerId_eq (hi : m.id.index < 2 ^ 31) :
    ownerId m.id.ns (UInt32.ofNat m.id.index) = .text m.id.mark := by
  have hnat : (UInt32.ofNat m.id.index).toNat = m.id.index :=
    UInt32.toNat_ofNat_of_lt' (by simp only [UInt32.size]; omega)
  rw [ownerId, hnat]
  rfl

/-- What changes of registers, of the window and of pages leave alone. -/
structure Unpaged (J : State → Prop) : Prop where
  setReg : ∀ {σ r} n, J σ → J (σ.setReg r n)
  setWindow : ∀ {σ} v, J σ → J (σ.setCell sharedId "mem" v)
  setPages : ∀ {σ} ns v, J σ → J (σ.setCell (ownId ns) "mems" v)

/-- What no change that has to do with paging takes away. -/
structure Lasting (I : State → Prop) : Prop extends Unpaged I where
  setScratch : ∀ {σ} v, I σ → I (σ.setCell sharedId "tmp" v)

/-- The window has last been checked against the mark of a memory. -/
def Checked (I : State → Prop) (id : MemoryId) (σ : State) : Prop :=
  I σ ∧ σ.cells sharedId "tmp" = some (.text id.mark)

theorem unpaged_anywhere : Unpaged Anywhere :=
  ⟨fun _ _ => trivial, fun _ _ => trivial, fun _ _ _ => trivial⟩

theorem lasting_anywhere : Lasting Anywhere := ⟨unpaged_anywhere, fun _ _ => trivial⟩

theorem Lasting.checked {I : State → Prop} (h : Lasting I) (id : MemoryId) :
    Unpaged (Checked I id) where
  setReg n := And.imp_left (h.setReg n)
  setWindow v hσ := by
    refine ⟨h.setWindow v hσ.1, ?_⟩
    rw [State.cells_setCell, if_neg fun hk => absurd hk.2 (by decide), hσ.2]
  setPages ns v hσ := by
    refine ⟨h.setPages ns v hσ.1, ?_⟩
    rw [State.cells_setCell, if_neg fun hk => absurd hk.2 (by decide), hσ.2]

variable {I J : State → Prop}

/-- The check leaves zero exactly if the window belongs to the memory. -/
theorem endsWith_ownerCheck (hI : Lasting I) (hσ : I σ) (h : P.ShownBy σ) (hw : P.window = some w)
    (hi : m.id.index < 2 ^ 31) (hr : r ∈ rs)
    (hrest : ∀ σ₁, P.ShownBy σ₁ → KeepsBut rs σ σ₁ → Checked I m.id σ₁ →
      σ₁.regs r = some (if w.owner = m.id.mark then 0 else 1) →
      EndsWith code (⟨m.id.ns, rest⟩ :: outer) rs σ₁ J o) :
    EndsWith code (⟨m.id.ns, ownerCheck m.id.ns (UInt32.ofNat m.id.index) r ++ rest⟩ :: outer) rs σ
      J o := by
  let τ := σ.setCell sharedId "tmp" (.text w.owner)
  let n : Int32 := if w.owner = m.id.mark then 0 else 1
  have hcopy : Steps code.tags m.id.ns (.setFrom scratch windowId) σ [] τ :=
    .plain (.setFrom _ _) (performs_setFrom ⟨_, _, rfl⟩ (h.lookup_windowId hw)
      (performs_setData_top rfl))
  have hpart : (Report.ofChange (decide (τ.cells sharedId "tmp" ≠ some (.text m.id.mark)))).part
      .success = n := by
    have hcell : τ.cells sharedId "tmp" = some (.text w.owner) := by
      rw [State.cells_setCell, if_pos ⟨rfl, rfl⟩]
    rw [hcell]
    by_cases ho : w.owner = m.id.mark <;>
      simp [n, ho, Report.ofChange, Report.part, Report.failed, Report.done]
  have htest : Steps code.tags m.id.ns
      (.execute [.store .success (.score r)] (.setData scratch (.text m.id.mark))) τ []
      ((τ.setCell sharedId "tmp" (.text m.id.mark)).setReg r n) := by
    rw [← hpart]
    exact .stored (.setData _ _) (performs_setData_top rfl) stores_score
  have hτ : KeepsBut rs σ τ := (KeepsBut.refl rs σ).setCell (by simp)
  have hτ' : KeepsBut rs τ ((τ.setCell sharedId "tmp" (.text m.id.mark)).setReg r n) :=
    ((KeepsBut.refl rs τ).setCell (by simp)).setReg hr
  have hchecked : Checked I m.id ((τ.setCell sharedId "tmp" (.text m.id.mark)).setReg r n) :=
    ⟨hI.setReg _ (hI.setScratch _ (hI.setScratch _ hσ)), by simp⟩
  rw [ownerCheck, ownerId_eq hi]
  refine .plain hcopy hτ (.plain htest hτ' (hrest _ ?_ (hτ.trans hτ') hchecked (if_pos rfl)))
  exact ((h.setCell (by decide) (by decide)).setCell (by decide) (by decide)).setReg

/-- Where a memory is found, with its trees. -/
def Code.HasMemory (code : Code) (m : PagedMemory) : Prop :=
  code.Finds m.id.ns (pagedSequences m.id.ns (UInt32.ofNat m.id.index) m.max)

theorem Code.HasMemory.swapInTree (h : code.HasMemory m) :
    code.Finds m.id.ns ((Compile.swapInTree (UInt32.ofNat m.id.index)).sequences
      (fun page => .setFrom windowData (pagePath (UInt32.ofNat m.id.index) page))
      (pageSpan m.max)) := fun s hs =>
  h s (List.mem_append_left _ (List.mem_append_left _ hs))

theorem Code.HasMemory.swapOutTree (h : code.HasMemory m) :
    code.Finds m.id.ns ((Compile.swapOutTree (UInt32.ofNat m.id.index)).sequences
      (fun page => .setFrom (pagePath (UInt32.ofNat m.id.index) page) windowData)
      (pageSpan m.max)) := fun s hs =>
  h s (List.mem_append_left _ (List.mem_append_right _ hs))

theorem Code.HasMemory.operation (h : code.HasMemory m) {op : MemoryOp} {cs : List Command}
    (hs : ⟨.memory (UInt32.ofNat m.id.index) op, cs⟩ ∈
      pagedSequences m.id.ns (UInt32.ofNat m.id.index) m.max) :
    code.function ((Symbol.memory (UInt32.ofNat m.id.index) op).qualifiedName m.id.ns) =
      .ok ⟨m.id.ns, cs⟩ := h _ hs

/-- What reading a byte is called by. -/
theorem Code.HasMemory.get (h : code.HasMemory m) : code.function (m.operation .get) =
    .ok ⟨m.id.ns, accessCommands (UInt32.ofNat m.id.index) .byteGet⟩ :=
  h.operation (by simp [pagedSequences])

/-- What writing a byte is called by. -/
theorem Code.HasMemory.set (h : code.HasMemory m) : code.function (m.operation .set) =
    .ok ⟨m.id.ns, accessCommands (UInt32.ofNat m.id.index) .byteSet⟩ :=
  h.operation (by simp [pagedSequences])

theorem has_pageSpan_iff {max : UInt32} {v : Int32} :
    (pageSpan max).Has v ↔ 0 ≤ v.toInt ∧ v.toInt < max.toNat := by
  unfold pageSpan
  rw [Span.has_mk]
  omega

/-- A memory stores the window. -/
theorem endsWith_swapOut (hJ : Unpaged J) (hσ : J σ) (hcode : code.HasMemory m) (hm : m.Fits)
    (h : P.ShownBy σ) (hw : P.window = some w) (hr : Register.index ∈ rs) :
    EndsWith code [⟨m.id.ns, swapOutCommands (UInt32.ofNat m.id.index) m.max⟩] rs σ J
      (P.store w m) := by
  let σ₁ := σ.setReg .index w.page
  have hload : Steps code.tags m.id.ns (.load .index windowPage) σ [] σ₁ :=
    .stored (.getData _) (performs_getData ⟨_, _, rfl⟩ (h.lookup_windowPage hw)) stores_score
  have h₁ : P.ShownBy σ₁ := h.setReg
  have hσ₁ : J σ₁ := hJ.setReg _ hσ
  have hindex : σ₁.regs .index = some w.page := by rw [State.regs_setReg, if_pos rfl]
  refine .plain hload ((KeepsBut.refl rs σ).setReg hr) ?_
  unfold Paging.store
  by_cases hpage : 0 ≤ w.page.toInt ∧ w.page.toInt < m.max.toNat
  · rw [if_pos hpage]
    have hhas : (pageSpan m.max).Has w.page := has_pageSpan_iff.2 hpage
    have hlt : w.page.toInt.toNat < 2 ^ 31 := by
      have hle := hm.2
      omega
    split
    · rename_i old hold
      obtain ⟨v, hstep, hshown⟩ := steps_storePage h₁ hw hm.1 hlt hold
      exact ⟨_, DispatchTree.call_hit hm.span hcode.swapOutTree hindex hhas
        (.plain hstep .nil) fun _ => hindex, hshown, (KeepsBut.refl rs σ₁).setCell (by simp),
        hJ.setPages _ _ hσ₁⟩
    · rename_i hnone
      exact ⟨_, σ₁, DispatchTree.call_hit hm.span hcode.swapOutTree hindex hhas
        (.fault (fails_storePage h₁ hw hm.1 hlt hnone)) (fun hok => nomatch hok), h₁, .refl rs σ₁⟩
  · rw [if_neg hpage]
    have hhas : ¬(pageSpan m.max).Has w.page := fun hhas => hpage (has_pageSpan_iff.1 hhas)
    exact ⟨σ₁, DispatchTree.call_miss hm.span hcode.swapOutTree hindex hhas, h₁, .refl rs σ₁, hσ₁⟩

section
variable (hI : Lasting I)
include hI

/-- A memory stores the window if it is its own. -/
theorem endsWith_swapOutIfOwner (hσ : I σ) (hcode : code.HasMemory m) (hm : m.Fits)
    (h : P.ShownBy σ) (hw : P.window = some w) (hi : Register.index ∈ rs)
    (hs : Register.swap ∈ rs) :
    EndsWith code [⟨m.id.ns, swapOutIfOwner m.id.ns (UInt32.ofNat m.id.index)⟩] rs σ
      (Checked I m.id) (P.storeIfOwner w m) := by
  refine endsWith_ownerCheck hI hσ h hw hm.1 hs fun σ₁ h₁ _ hchecked hreg => ?_
  unfold Paging.storeIfOwner
  by_cases ho : w.owner = m.id.mark
  · rw [if_pos ho]
    rw [if_pos ho] at hreg
    exact .guarded (by rw [allows_ifIn hreg]; rfl)
      (.call (hcode.operation (by simp [pagedSequences]))
        (endsWith_swapOut (hI.checked m.id) hchecked hcode hm h₁ hw hi))
  · rw [if_neg ho]
    rw [if_neg ho] at hreg
    exact .blocked (by rw [allows_ifIn hreg]; rfl) (.nil h₁ hchecked)

/-- The memories of a module store the window if it belongs to one of them. -/
theorem endsWith_swapOutAll {id : MemoryId} (hσ : Checked I id σ)
    (hcode : ∀ m ∈ ms, code.HasMemory m) (hm : ∀ m ∈ ms, m.Fits)
    (hns : ∀ m ∈ ms, m.id.ns = ns) (h : P.ShownBy σ) (hw : P.window = some w)
    (hi : Register.index ∈ rs) (hs : Register.swap ∈ rs) :
    EndsWith code [⟨ns, ms.flatMap fun m => swapOutIfOwner ns (UInt32.ofNat m.id.index)⟩] rs σ
      (Checked I (lastChecked id ms)) (P.flush w ms) := by
  induction ms generalizing P σ id with
  | nil => exact .nil h hσ
  | cons m ms ih =>
    rw [Paging.flush_cons]
    obtain rfl := hns m List.mem_cons_self
    refine .seq (endsWith_swapOutIfOwner hI hσ.1 (hcode m List.mem_cons_self)
      (hm m List.mem_cons_self) h hw hi hs) fun P₁ σ₁ hP₁ h₁ _ hσ₁ => ?_
    have hw₁ : P₁.window = some w := by rw [Paging.window_of_storeIfOwner hP₁, hw]
    exact ih hσ₁ (fun m' hm' => hcode m' (List.mem_cons_of_mem m hm'))
      (fun m' hm' => hm m' (List.mem_cons_of_mem m hm'))
      (fun m' hm' => hns m' (List.mem_cons_of_mem m hm')) h₁ hw₁

end

/-! ## Storing the window, whoever owns it -/

end Machine

/-- The memories of one module that may have pages. -/
structure MemoryGroup where
  ns : String
  memories : List PagedMemory

/-- The function that stores the window if it belongs to a memory of the group. -/
def MemoryGroup.swapOutAll (g : MemoryGroup) : Machine.Function :=
  ⟨g.ns, g.memories.flatMap fun m => swapOutIfOwner g.ns (UInt32.ofNat m.id.index)⟩

/-- The memories of all modules. -/
def allMemories (gs : List MemoryGroup) : List PagedMemory := gs.flatMap (·.memories)

namespace Machine

/-- The code has the memories of some modules, and the tag that stores the window reaches them. -/
structure Code.Pages (code : Code) (gs : List MemoryGroup) : Prop where
  ns_eq : ∀ g ∈ gs, ∀ m ∈ g.memories, m.id.ns = g.ns
  hasMemory : ∀ m ∈ allMemories gs, code.HasMemory m
  fits : ∀ m ∈ allMemories gs, m.Fits
  members : code.functionsOf code.tags.swapOut = .ok (gs.map (·.swapOutAll))

variable {code : Code} {P : Paging} {σ : State} {w : Window} {m : PagedMemory}
  {gs : List MemoryGroup} {ns : String} {rest : List Command} {outer : List Function}
  {rs : List Register} {o : Upshot} {page : Nat} {I J : State → Prop} {id : MemoryId}

section
variable (hI : Lasting I)
include hI

theorem endsWith_groups (hσ : Checked I id σ) (hns : ∀ g ∈ gs, ∀ m ∈ g.memories, m.id.ns = g.ns)
    (hcode : ∀ m ∈ allMemories gs, code.HasMemory m) (hm : ∀ m ∈ allMemories gs, m.Fits)
    (h : P.ShownBy σ) (hw : P.window = some w) (hi : Register.index ∈ rs)
    (hs : Register.swap ∈ rs) :
    EndsWith code (gs.map (·.swapOutAll)) rs σ (Checked I (lastChecked id (allMemories gs)))
      (P.flush w (allMemories gs)) := by
  induction gs generalizing P σ id with
  | nil => exact ⟨σ, .done, h, .refl rs σ, hσ⟩
  | cons g gs ih =>
    have hg : ∀ m ∈ g.memories, m ∈ allMemories (g :: gs) := fun m hmem =>
      List.mem_append_left _ hmem
    have hgs : ∀ m ∈ allMemories gs, m ∈ allMemories (g :: gs) := fun m hmem =>
      List.mem_append_right _ hmem
    have hall : allMemories (g :: gs) = g.memories ++ allMemories gs := rfl
    rw [hall, Paging.flush_append, lastChecked, List.foldl_append]
    refine EndsWith.append (endsWith_swapOutAll hI hσ (fun m hmem => hcode m (hg m hmem))
      (fun m hmem => hm m (hg m hmem)) (hns g List.mem_cons_self) h hw hi hs)
      fun P₁ σ₁ hP₁ h₁ _ hσ₁ => ?_
    exact ih hσ₁ (fun g' hg' => hns g' (List.mem_cons_of_mem g hg'))
      (fun m hmem => hcode m (hgs m hmem)) (fun m hmem => hm m (hgs m hmem)) h₁
      (by rw [Paging.window_of_flush hP₁, hw])

/-- Calling the tag stores the window. -/
theorem endsWith_flush (hσ : Checked I id σ) (hcode : code.Pages gs) (hne : gs ≠ [])
    (h : P.ShownBy σ) (hw : P.window = some w) (hi : Register.index ∈ rs)
    (hs : Register.swap ∈ rs) :
    EndsWith code [⟨ns, [.callTag .swapOut]⟩] rs σ (Checked I (lastChecked id (allMemories gs)))
      (P.flush w (allMemories gs)) := by
  have hmembers : code.tags.members .swapOut ≠ [] := by
    intro hnil
    have hok := hcode.members
    rw [show code.tags.swapOut = [] from hnil] at hok
    exact hne (List.map_eq_nil_iff.1 (Except.ok.inj hok).symm)
  have hgroups := endsWith_groups hI hσ hcode.ns_eq hcode.hasMemory hcode.fits h hw hi hs
  have hback : EndsWith code (gs.map (·.swapOutAll) ++ [⟨ns, []⟩]) rs σ
      (Checked I (lastChecked id (allMemories gs)))
      (P.flush w (allMemories gs) >>= Except.ok) :=
    hgroups.append fun P₁ σ₁ _ h₁ _ hσ₁ => .nil h₁ hσ₁
  have hok : ∀ o : Upshot, (o >>= Except.ok) = o := fun o => by cases o <;> rfl
  rw [hok] at hback
  exact hback.of_runs (.refl rs σ) fun _ _ hr => .step (.callTag hmembers) hcode.members hr

end

/-! ## Loading a page -/

theorem allows_onFault (h : σ.regs .pageFault = some 1) :
    σ.allows (.ifIn .pageFault (.exact 1)) = some true := by
  rw [allows_ifIn h]
  rfl

/-- The tree loads the page, where the window has been stored, and the window is marked. -/
theorem endsWith_load (hJ : Unpaged J) (hσ : J σ) (hcode : code.HasMemory m) (hm : m.Fits)
    (h : P.ShownBy σ) (hw : P.window = some w) (hpage : page < 65536)
    (hfault : σ.regs .pageFault = some 1)
    (hindex : σ.regs .index = some (Int32.ofNat page))
    (htarget : σ.regs .targetPage = some (Int32.ofNat page)) :
    EndsWith code [⟨m.id.ns,
      [onFault (.call ((swapInTree (UInt32.ofNat m.id.index)).symbol (pageSpan m.max))),
        onFault (.setData windowId (ownerId m.id.ns (UInt32.ofNat m.id.index))),
        onFault (.save windowPage .targetPage)]⟩] rs σ J (P.load w m page) := by
  -- Once the page is there, or there is none to load, the window gets its mark.
  have hmark : ∀ w₁ σ₁, (P.setWindow w₁).ShownBy σ₁ → J σ₁ → σ₁.regs .pageFault = some 1 →
      σ₁.regs .targetPage = some (Int32.ofNat page) →
      EndsWith code [⟨m.id.ns, [onFault (.setData windowId (ownerId m.id.ns (UInt32.ofNat m.id.index))),
        onFault (.save windowPage .targetPage)]⟩] rs σ₁ J
        (.ok (P.setWindow ⟨w₁.data, m.id.mark, Int32.ofNat page⟩)) := by
    intro w₁ σ₁ h₁ hσ₁ hfault₁ htarget₁
    have h₂ := h₁.setWindow (w := { w₁ with owner := m.id.mark })
    have hid : Steps code.tags m.id.ns (.setData windowId (.text m.id.mark)) σ₁ [] _ :=
      .plain (.setData windowId _)
        (performs_setData rfl (by simp) (h₁.window_cell rfl) write_windowId)
    have hread : Does (σ₁.setCell sharedId "mem" ({ w₁ with owner := m.id.mark } : Window).toNbt)
        (perform m.id.ns (.getScore .targetPage)) (.done (Int32.ofNat page)) _ :=
      performs_getScore htarget₁
    have hsave : Steps code.tags m.id.ns (.save windowPage .targetPage) _ [] _ :=
      .stored (.getScore .targetPage) hread
        (stores_storage rfl (by simp) (h₂.window_cell rfl) write_windowPage)
    rw [ownerId_eq hm.1]
    exact .guarded (allows_onFault hfault₁) (.plain hid ((KeepsBut.refl rs _).setCell (by simp))
      (.guarded (allows_onFault hfault₁) (.plain hsave ((KeepsBut.refl rs _).setCell (by simp))
        (.nil h₂.setWindow (hJ.setWindow _ (hJ.setWindow _ hσ₁))))))
  have hint : (Int32.ofNat page).toInt = page := Int32.toInt_ofNat_of_lt (by omega)
  unfold Paging.load
  by_cases hmax : page < m.max.toNat
  · rw [if_pos hmax]
    have hhas : (pageSpan m.max).Has (Int32.ofNat page) := has_pageSpan_iff.2 (by omega)
    have hkey : (Int32.ofNat page).toInt.toNat = page := by omega
    split
    · rename_i data hdata
      have hstep : Steps code.tags m.id.ns _ σ [] _ :=
        steps_loadPage h hw hm.1 (by omega) hdata
      rw [← hkey] at hstep
      have hcall := DispatchTree.call_hit hm.span hcode.swapInTree hindex hhas
        (.plain hstep .nil) fun _ => hindex
      exact (hmark _ _ h.setWindow (hJ.setWindow _ hσ) hfault htarget).of_runs
        ((KeepsBut.refl rs σ).setCell (by simp))
        fun _ _ hr => .guarded (allows_onFault hfault) (hcall.seq hr)
    · rename_i hnone
      have hfail : Fails σ (step code.tags m.id.ns _) _ σ :=
        fails_loadPage h hm.1 (by omega) hnone
      rw [← hkey] at hfail
      have hcall := DispatchTree.call_hit hm.span hcode.swapInTree hindex hhas
        (.fault hfail) (fun hok => nomatch hok)
      exact ⟨_, σ, .guarded (allows_onFault hfault) hcall.seq_fault, h, .refl rs σ⟩
  · rw [if_neg hmax]
    have hhas : ¬(pageSpan m.max).Has (Int32.ofNat page) := fun hhas => by
      have hlt := (has_pageSpan_iff.1 hhas).2
      omega
    have hcall := DispatchTree.call_miss hm.span hcode.swapInTree hindex hhas
    have hself : P.setWindow w = P := by
      cases P
      cases hw
      rfl
    exact (hmark w σ (hself ▸ h) hσ hfault htarget).of_runs (.refl rs σ)
      fun _ _ hr => .guarded (allows_onFault hfault) (hcall.seq hr)

/-- The registers that loading a page works with. -/
def swapRegisters : List Register := [.index, .swap, .pageFault]

section
variable (hI : Lasting I)
include hI

/-- What happens where the wanted page is not in the window. -/
theorem endsWith_fault (hσ : Checked I m.id σ) (hcode : code.Pages gs) (hmem : m ∈ allMemories gs)
    (h : P.ShownBy σ) (hw : P.window = some w) (hpage : page < 65536)
    (hfault : σ.regs .pageFault = some 1) (htarget : σ.regs .targetPage = some (Int32.ofNat page)) :
    EndsWith code [⟨m.id.ns, [onFault (.callTag .swapOut), onFault (.copy .index .targetPage),
      onFault (.call ((swapInTree (UInt32.ofNat m.id.index)).symbol (pageSpan m.max))),
      onFault (.setData windowId (ownerId m.id.ns (UInt32.ofNat m.id.index))),
      onFault (.save windowPage .targetPage)]⟩] swapRegisters σ
      (Checked I (lastChecked m.id (allMemories gs)))
      (P.flush w (allMemories gs) >>= fun P => P.load w m page) := by
  have hne : gs ≠ [] := by
    rintro rfl
    cases hmem
  -- Storing the window changes neither the fault nor the wanted page.
  have hflush : EndsWith code [⟨m.id.ns, [.callTag .swapOut]⟩] [.index, .swap] σ _ _ :=
    endsWith_flush hI hσ hcode hne h hw (by simp) (by simp)
  refine .guarded (c := .callTag .swapOut) (allows_onFault hfault) ?_
  cases hP : P.flush w (allMemories gs) with
  | error P₁ =>
    rw [hP] at hflush
    obtain ⟨path, σ', hr, hs, hk⟩ := hflush
    exact ⟨path, σ', hr.seq_fault, hs, hk.mono (by simp [swapRegisters])⟩
  | ok P₁ =>
    rw [hP] at hflush
    obtain ⟨σ₁, hr, h₁, hk, hσ₁⟩ := hflush
    have hw₁ : P₁.window = some w := by rw [Paging.window_of_flush hP, hw]
    have hfault₁ : σ₁.regs .pageFault = some 1 := by rw [hk.regs _ (by simp), hfault]
    have htarget₁ : σ₁.regs .targetPage = some (Int32.ofNat page) := by
      rw [hk.regs _ (by simp), htarget]
    have hcopy : Steps code.tags m.id.ns (.copy .index .targetPage) σ₁ []
        (σ₁.setReg .index (Int32.ofNat page)) :=
      steps_copy htarget₁
    have hload : EndsWith code _ swapRegisters _ _ _ :=
      endsWith_load (σ := σ₁.setReg .index (Int32.ofNat page)) (hI.checked _)
        ((hI.checked _).setReg _ hσ₁) (hcode.hasMemory m hmem) (hcode.fits m hmem) h₁.setReg hw₁
        hpage (by simp [hfault₁]) (by simp) (by simp [htarget₁])
    exact (EndsWith.guarded (allows_onFault hfault₁) (.plain hcopy
      ((KeepsBut.refl _ _).setReg (by simp [swapRegisters])) hload)).of_runs
      (hk.mono (by simp [swapRegisters])) fun _ _ hr' => hr.seq hr'

omit hI in
/-- Where the wanted page is in the window, nothing happens. -/
theorem endsWith_noFault (hσ : J σ) (h : P.ShownBy σ) (hfault : σ.regs .pageFault = some 0)
    (cs : List Command) : EndsWith code [⟨ns, cs.map onFault⟩] rs σ J (.ok P) := by
  induction cs with
  | nil => exact .nil h hσ
  | cons c cs ih =>
    refine .blocked (c := c) ?_ ih
    rw [allows_ifIn hfault]
    rfl

/-- A memory loads a page unless it is in the window. -/
theorem endsWith_swapIn (hσ : I σ) (hcode : code.Pages gs) (hmem : m ∈ allMemories gs)
    (h : P.ShownBy σ) (hw : P.window = some w) (hpage : page < 65536)
    (htarget : σ.regs .targetPage = some (Int32.ofNat page)) :
    EndsWith code [⟨m.id.ns, swapInCommands m.id.ns (UInt32.ofNat m.id.index) m.max⟩] swapRegisters
      σ (Checked I (w.lastChecked (allMemories gs) m page)) (P.swapIn w (allMemories gs) m page) := by
  have hset : Steps code.tags m.id.ns (.setScore .pageFault 0) σ [] (σ.setReg .pageFault 0) :=
    steps_setScore
  have htarget₀ : (σ.setReg .pageFault 0).regs .targetPage = some (Int32.ofNat page) := by
    simp [htarget]
  refine .plain hset ((KeepsBut.refl _ _).setReg (by simp [swapRegisters]))
    (endsWith_ownerCheck hI (hI.setReg _ hσ) h.setReg hw (hcode.fits m hmem).1
      (by simp [swapRegisters]) fun σ₁ h₁ hk hσ₁ hfault => ?_)
  have htarget₁ : σ₁.regs .targetPage = some (Int32.ofNat page) := by
    rw [hk.regs _ (by simp [swapRegisters]), htarget₀]
  have hreg : ∀ {τ : State} {r : Register} n, Checked I m.id τ → Checked I m.id (τ.setReg r n) :=
    (hI.checked m.id).setReg
  unfold Paging.swapIn Window.lastChecked
  by_cases ho : w.owner = m.id.mark
  · -- The window is the memory's own, but it may hold another page.
    rw [if_pos ho] at hfault
    have hload : Steps code.tags m.id.ns (.load .swap windowPage) σ₁ [] (σ₁.setReg .swap w.page) :=
      .stored (.getData _) (performs_getData ⟨_, _, rfl⟩ (h₁.lookup_windowPage hw)) stores_score
    have hfault₂ : (σ₁.setReg .swap w.page).regs .pageFault = some 0 := by simp [hfault]
    have hzero : ∀ τ : State, τ.regs .pageFault = some 0 →
        τ.allows (.ifIn .pageFault (.exact 0)) = some true := fun τ hτ => by
      rw [allows_ifIn hτ]
      rfl
    -- The fault is set by a comparison of the page in the window with the wanted one.
    have hcompare : (σ₁.setReg .swap w.page).allows
        (.exceptIf (.compare .swap .eq .targetPage)) = some (!decide (w.page = Int32.ofNat page)) := by
      show (((σ₁.setReg .swap w.page).regs .swap).bind fun x =>
        ((σ₁.setReg .swap w.page).regs .targetPage).map fun y => Compare.eq.holds x y).map _ = _
      simp [htarget₁, Compare.holds]
    refine .guarded (hzero _ hfault) (.plain hload ((KeepsBut.refl _ _).setReg
      (by simp [swapRegisters])) (.guarded (hzero _ hfault₂) ?_))
    by_cases hp : w.page = Int32.ofNat page
    · rw [if_pos ⟨ho, hp⟩, if_pos ⟨ho, hp⟩]
      exact .blocked (by rw [hcompare]; simp [hp])
        (endsWith_noFault (hreg _ hσ₁) h₁.setReg hfault₂ [_, _, _, _, _])
    · rw [if_neg fun hboth => hp hboth.2, if_neg fun hboth => hp hboth.2]
      refine .guarded (by rw [hcompare]; simp [hp]) (.plain (.plain (.setScore _ _)
        performs_setScore) ((KeepsBut.refl _ _).setReg (by simp [swapRegisters])) ?_)
      exact endsWith_fault hI (hreg _ (hreg _ hσ₁)) hcode hmem h₁.setReg.setReg hw hpage (by simp)
        (by simp [htarget₁])
  · -- Another memory holds the window: the fault is set already, so the page is not compared.
    rw [if_neg ho] at hfault
    rw [if_neg fun hboth => ho hboth.1, if_neg fun hboth => ho hboth.1]
    have hskip : σ₁.allows (.ifIn .pageFault (.exact 0)) = some false := by
      rw [allows_ifIn hfault]
      rfl
    exact .blocked hskip (.blocked hskip (endsWith_fault hI hσ₁ hcode hmem h₁ hw hpage hfault
      htarget₁))

end

end Machine

end WasmPack
