/-
  WasmPack.Proofs.Paging.Operations

  What reading and writing a byte does.  Either way the page of the address is
  loaded first, and then the byte is looked up in the window.
-/
import WasmPack.Proofs.Execution.Library
import WasmPack.Proofs.Paging.Window

namespace WasmPack

open Machine Compile

/-! ## Addresses -/

/-- The number of the page that an address lies in. -/
def pageOf (address : UInt32) : Nat := address.toNat / pageSize

/-- Where in its page an address lies. -/
def offsetOf (address : UInt32) : Nat := address.toNat % pageSize

theorem pageOf_lt (address : UInt32) : pageOf address < 65536 := by
  have hlt := address.toNat_lt
  unfold pageOf pageSize
  omega

theorem offsetOf_lt (address : UInt32) : offsetOf address < pageSize :=
  Nat.mod_lt _ (by decide)

/-- Dividing by the size of a page rounds down. -/
theorem floorDiv_pageSize (n : Int32) :
    floorDiv n (Int32.ofNat pageSize) = some (Int32.ofInt (n.toInt / 65536)) := by
  have hsize : (Int32.ofNat pageSize).toInt = 65536 := by decide
  have hne : Int32.ofNat pageSize ≠ 0 := by decide
  rw [floorDiv, if_neg hne, hsize, Int.fdiv_eq_ediv_of_nonneg _ (by decide)]

/-- The number of the page is what division leaves, up to a correction where the address counts
    as negative. -/
theorem page_of_quotient (address : UInt32) :
    let q := Int32.ofInt (address.toInt32.toInt / 65536)
    (if q ≤ -1 then q + Int32.ofNat pageSize else q) = Int32.ofNat (pageOf address) := by
  have hlt := address.toNat_lt
  have hint := toInt_toInt32 address
  have hq : (Int32.ofInt (address.toInt32.toInt / 65536)).toInt = address.toInt32.toInt / 65536 :=
    Int32.toInt_ofInt_of_le (by omega) (by omega)
  have hneg : (-1 : Int32).toInt = -1 := rfl
  have hpage : Int32.ofNat (pageOf address) = Int32.ofInt (address.toNat / 65536) :=
    Int32.ofInt_eq_ofNat.symm
  simp only [Int32.le_iff_toInt_le, hq, hneg]
  rw [hpage, ← Int32.ofInt_eq_ofNat, ← Int32.ofInt_add]
  unfold pageSize
  split <;> split at hint <;> first | omega | (congr 1; omega)

theorem floorMod_pageSize (address : UInt32) :
    floorMod address.toInt32 (Int32.ofNat pageSize) = some (Int32.ofNat (offsetOf address)) := by
  have hsize : (Int32.ofNat pageSize).toInt = 65536 := by decide
  have hne : Int32.ofNat pageSize ≠ 0 := by decide
  have hint := toInt_toInt32 address
  have hmod : address.toInt32.toInt % 65536 = (offsetOf address : Int) := by
    unfold offsetOf pageSize
    split at hint <;> omega
  rw [floorMod, if_neg hne, hsize, Int.fmod_eq_emod_of_nonneg _ (by decide), hmod,
    Int32.ofInt_eq_ofNat]

namespace Paging

variable {P P' : Paging} {w : Window} {m : PagedMemory} {ms : List PagedMemory} {page : Nat}

/-- Loading a page leaves a window. -/
theorem exists_window_of_swapIn (hw : P.window = some w) (h : P.swapIn w ms m page = .ok P') :
    ∃ w', P'.window = some w' := by
  unfold swapIn at h
  split at h
  · cases h
    exact ⟨w, hw⟩
  · obtain ⟨P₁, -, h⟩ := except_bind_eq_ok.1 h
    unfold load at h
    split at h
    · split at h
      · cases h
        exact ⟨_, rfl⟩
      · cases h
    · cases h
      exact ⟨_, rfl⟩

/-- Another byte in the window. -/
def setWindowByte (P : Paging) (offset : Nat) (b : Int8) : Paging :=
  { P with window := P.window.map fun w => { w with data := w.data.setByte offset b } }

theorem setWindowByte_of_window {offset : Nat} {b : Int8} (hw : P.window = some w) :
    P.setWindowByte offset b = P.setWindow { w with data := w.data.setByte offset b } := by
  rw [setWindowByte, hw]
  rfl

end Paging

namespace Machine

variable {code : Code} {P : Paging} {σ : State} {w : Window} {m : PagedMemory}
  {gs : List MemoryGroup} {ns : String} {address : UInt32} {offset : Nat} {I : State → Prop}

/-! ## Reaching the byte -/

/-- The registers that reaching a byte works with. -/
def accessRegisters : List Register := [.index, .swap, .pageFault, .targetPage, .targetAddress]

/-- The registers that an operation relies on: the constant size of a page, and an address. -/
structure Addressed (σ : State) (address : UInt32) : Prop where
  const : σ.regs (.const (Int32.ofNat pageSize)) = some (Int32.ofNat pageSize)
  index : σ.regs .index = some address.toInt32

/-- The first commands of an access: the number of the page goes into `#target_page`. -/
theorem runs_targetPage (ha : Addressed σ address) {rest : List Command} {e : Except Fault Unit}
    {σ' : State} (h : Runs code [⟨ns, rest⟩] ((σ.setReg .targetAddress address.toInt32).setReg
      .targetPage (Int32.ofNat (pageOf address))) e σ') :
    Runs code [⟨ns, .copy .targetAddress .index :: .copy .targetPage .index ::
      .operation .targetPage .div (.const (Int32.ofNat pageSize)) ::
      (Command.addScore .targetPage (Int32.ofNat pageSize)).ifIn .targetPage (.atMost (-1)) ::
      rest⟩] σ e σ' := by
  let q := Int32.ofInt (address.toInt32.toInt / 65536)
  let σ₁ := σ.setReg .targetAddress address.toInt32
  let σ₂ := σ₁.setReg .targetPage address.toInt32
  let σ₃ := σ₁.setReg .targetPage q
  have hindex₁ : σ₁.regs .index = some address.toInt32 := ha.index
  have hconst₂ : σ₂.regs (.const (Int32.ofNat pageSize)) = some (Int32.ofNat pageSize) := ha.const
  have htarget₂ : σ₂.regs .targetPage = some address.toInt32 := by simp [σ₂]
  have htarget₃ : σ₃.regs .targetPage = some q := by simp [σ₃]
  have h₁ : Steps code.tags ns (.copy .targetAddress .index) σ [] σ₁ :=
    steps_copy ha.index
  have h₂ : Steps code.tags ns (.copy .targetPage .index) σ₁ [] σ₂ :=
    steps_copy hindex₁
  have h₃ : Steps code.tags ns (.operation .targetPage .div (.const (Int32.ofNat pageSize))) σ₂ []
      σ₃ := by
    have hop : Steps code.tags ns (.operation .targetPage .div (.const (Int32.ofNat pageSize))) σ₂
        [] _ := steps_operation (by decide) htarget₂ hconst₂
    have hq : applyOp .div address.toInt32 (Int32.ofNat pageSize) = q := by
      simp [applyOp, floorDiv_pageSize, q]
    rwa [hq, State.setReg_setReg] at hop
  refine .plain h₁ (.plain h₂ (.plain h₃ ?_))
  -- The correction applies exactly where the quotient is negative.
  have hpage := page_of_quotient address
  have hguard : σ₃.allows (.ifIn .targetPage (.atMost (-1))) = some (decide (q ≤ -1)) := by
    rw [allows_ifIn htarget₃]
    simp [Range.contains, Range.atMost]
  by_cases hq : q ≤ -1
  · have hop : Steps code.tags ns (.addScore .targetPage (Int32.ofNat pageSize)) σ₃ [] _ :=
      steps_addScore htarget₃
    rw [← if_pos (c := q ≤ -1) (t := q + Int32.ofNat pageSize) (e := q) hq, hpage,
      State.setReg_setReg] at hop
    exact .guarded (by rw [hguard, decide_eq_true hq]) (.plain hop h)
  · rw [← hpage, if_neg hq] at h
    exact .blocked (by rw [hguard, decide_eq_false hq]) h

/-- An access comes to its last command with the page in the window and the offset in `#index`,
    or misses the page. -/
theorem access_reaches (hI : Lasting I) (hσ : I σ) (hcode : code.Pages gs)
    (hmem : m ∈ allMemories gs) (h : P.ShownBy σ) (hw : P.window = some w)
    (ha : Addressed σ address) (r : Routine) :
    match P.swapIn w (allMemories gs) m (pageOf address) with
    | .ok P' => ∃ σ₁, P'.ShownBy σ₁ ∧ KeepsBut accessRegisters σ σ₁ ∧
        Checked I (w.lastChecked (allMemories gs) m (pageOf address)) σ₁ ∧
        σ₁.regs .index = some (Int32.ofNat (offsetOf address)) ∧
        ∀ e σ', Runs code [⟨m.id.ns, [.call (.routine r)]⟩] σ₁ e σ' →
          Runs code [⟨m.id.ns, accessCommands (UInt32.ofNat m.id.index) r⟩] σ e σ'
    | .error P' => Ends code [⟨m.id.ns, accessCommands (UInt32.ofNat m.id.index) r⟩]
        accessRegisters σ (.error P') := by
  let σ₁ := (σ.setReg .targetAddress address.toInt32).setReg .targetPage
    (Int32.ofNat (pageOf address))
  have hkeeps₁ : KeepsBut accessRegisters σ σ₁ :=
    ((KeepsBut.refl _ σ).setReg (by simp [accessRegisters])).setReg (by simp [accessRegisters])
  have hsub : swapRegisters ⊆ accessRegisters := by simp [swapRegisters, accessRegisters]
  have hfind : code.function ((Symbol.memory (UInt32.ofNat m.id.index) .swapIn).qualifiedName
      m.id.ns) = .ok ⟨m.id.ns, swapInCommands m.id.ns (UInt32.ofNat m.id.index) m.max⟩ :=
    (hcode.hasMemory m hmem).operation (by simp [pagedSequences])
  -- The registers hold the address and its page; the rest of the run depends on the swap alone.
  have hswap := endsWith_swapIn (σ := σ₁) hI (hI.setReg _ (hI.setReg _ hσ)) hcode hmem
    h.setReg.setReg hw (pageOf_lt address) (by simp [σ₁])
  cases hP : P.swapIn w (allMemories gs) m (pageOf address) with
  | error P' =>
    rw [hP] at hswap
    obtain ⟨path, σ', hr, hs, hk⟩ := hswap
    exact ⟨path, σ', runs_targetPage ha (.call_fault .call hfind hr), hs,
      hkeeps₁.trans (hk.mono hsub)⟩
  | ok P' =>
    rw [hP] at hswap
    obtain ⟨σ₂, hr, hs, hk, hσ₂⟩ := hswap
    -- The swap leaves the address alone, so that the offset can be taken from it afterwards.
    let σ₃ := σ₂.setReg .index address.toInt32
    have haddress₂ : σ₂.regs .targetAddress = some address.toInt32 := by
      rw [hk.regs _ (by simp [swapRegisters])]
      simp [σ₁]
    have hconst₃ : σ₃.regs (.const (Int32.ofNat pageSize)) = some (Int32.ofNat pageSize) := by
      show σ₂.regs _ = _
      rw [hk.regs _ (by simp [swapRegisters])]
      exact ha.const
    have hindex₃ : σ₃.regs .index = some address.toInt32 := by simp [σ₃]
    have h₂ : Steps code.tags m.id.ns (.copy .index .targetAddress) σ₂ [] σ₃ :=
      steps_copy haddress₂
    have h₃ : Steps code.tags m.id.ns (.operation .index .mod (.const (Int32.ofNat pageSize))) σ₃ []
        (σ₃.setReg .index (Int32.ofNat (offsetOf address))) := by
      have hop : Steps code.tags m.id.ns (.operation .index .mod (.const (Int32.ofNat pageSize)))
          σ₃ [] _ := steps_operation (by decide) hindex₃ hconst₃
      have hq : applyOp .mod address.toInt32 (Int32.ofNat pageSize) =
          Int32.ofNat (offsetOf address) := by
        simp [applyOp, floorMod_pageSize]
      rwa [hq] at hop
    refine ⟨σ₃.setReg .index (Int32.ofNat (offsetOf address)), hs.setReg.setReg, ?_,
      (hI.checked _).setReg _ ((hI.checked _).setReg _ hσ₂), by simp,
      fun e σ' hr' => runs_targetPage ha (.call .call hfind hr (.plain h₂ (.plain h₃ hr')))⟩
    exact hkeeps₁.trans (((hk.mono hsub).setReg (by simp [accessRegisters])).setReg
      (by simp [accessRegisters]))

/-! ## The byte -/

theorem getElem?_page {page : Page} (h : offset < pageSize) :
    page.toArray[offset]? = some (page.byte offset) := by
  simp [Page.byte, h]

/-- A tree over the offsets of a page does what the command of the offset does. -/
theorem runs_offsetTree {t : DispatchTree} {leaf : Nat → Command} {σ' : State}
    (ht : t.key = .index)
    (hfinds : code.Finds sharedNamespace (t.sequences leaf Library.pageOffsets))
    (hoffset : offset < pageSize) (hindex : σ.regs .index = some (Int32.ofNat offset))
    (hleaf : Runs code [⟨sharedNamespace, [leaf offset]⟩] σ (.ok ()) σ')
    (hindex' : σ'.regs .index = some (Int32.ofNat offset)) :
    Runs code [⟨sharedNamespace, [.call (t.symbol Library.pageOffsets)]⟩] σ (.ok ()) σ' := by
  unfold pageSize at hoffset
  have hint : (Int32.ofNat offset).toInt = offset := Int32.toInt_ofNat_of_lt (by omega)
  have hkey : (Int32.ofNat offset).toInt.toNat = offset := by omega
  have hhas : Library.pageOffsets.Has (Int32.ofNat offset) := by
    unfold Library.pageOffsets pageSize
    rw [Span.has_mk]
    omega
  have hfit : Library.pageOffsets.Fits := by
    unfold Library.pageOffsets pageSize
    rw [Span.fits_mk]
    omega
  rw [← hkey] at hleaf
  rw [← ht] at hindex hindex'
  exact DispatchTree.call_hit hfit hfinds hindex hhas hleaf fun _ => hindex'

/-- A byte of the window lies where its path leads. -/
theorem lookup_windowByte (h : P.ShownBy σ) (hw : P.window = some w) (hoffset : offset < pageSize) :
    σ.lookup sharedNamespace (Library.windowByte offset) =
      some (.element (w.data.byte offset)) := by
  show (σ.cells sharedId "mem").bind _ = _
  rw [h.window_cell hw]
  have hlt := hoffset
  unfold pageSize at hlt
  exact Nbt.lookup_bytes (Nbt.position?_ofNat (by omega) (by simpa using hoffset))
    (getElem?_page hoffset)

/-- The byte of the window at an offset is read into `#a`. -/
theorem runs_byteGet (hlib : code.HasLibrary) (h : P.ShownBy σ) (hw : P.window = some w)
    (hoffset : offset < pageSize) (hindex : σ.regs .index = some (Int32.ofNat offset)) :
    Runs code [⟨ns, [.call (.routine .byteGet)]⟩] σ (.ok ())
      (σ.setReg .a (w.data.byte offset).toInt32) := by
  have hlookup := lookup_windowByte h hw hoffset
  have hload : Steps code.tags sharedNamespace (.load .a (Library.windowByte offset)) σ []
      (σ.setReg .a (w.data.byte offset).toInt32) :=
    .stored (.getData _) (performs_getData ⟨_, _, rfl⟩ hlookup) stores_score
  exact .call .call (hlib.routine .byteGet ns) (runs_offsetTree rfl hlib.byteGetTree hoffset hindex
    (.plain hload .nil) (by simp [hindex])) .nil

/-- What the routine that writes a byte does: the low byte of `#a` goes to the window at an
    offset. -/
theorem runs_byteSetRoutine (hlib : code.HasLibrary) (h : P.ShownBy σ) (hw : P.window = some w)
    (hoffset : offset < pageSize) (hindex : σ.regs .index = some (Int32.ofNat offset))
    {value : Int32} (ha : σ.regs .a = some value) :
    Runs code [⟨sharedNamespace, Library.routineCommands .byteSet⟩] σ (.ok ())
      (σ.setCell sharedId "mem"
        ({ w with data := w.data.setByte offset value.toInt8 } : Window).toNbt) := by
  have hlt := hoffset
  unfold pageSize at hlt
  obtain ⟨c, hwrite⟩ := write_windowByte (w := w) (b := value.toInt8)
    (Nbt.position?_ofNat (n := w.data.toArray.size) (j := offset) (by omega) (by simpa using hoffset))
  have hsave : Steps code.tags sharedNamespace (.saveAs (Library.windowByte offset) .byte .a) σ [] _ :=
    .stored (.getScore .a) (performs_getScore ha)
      (stores_storage rfl (by simp)
        (h.window_cell hw) hwrite)
  exact runs_offsetTree rfl hlib.byteSetTree hoffset hindex (.plain hsave .nil) hindex

/-- The low byte of `#a` is written to the window at an offset. -/
theorem runs_byteSet (hlib : code.HasLibrary) (h : P.ShownBy σ) (hw : P.window = some w)
    (hoffset : offset < pageSize) (hindex : σ.regs .index = some (Int32.ofNat offset))
    {value : Int32} (ha : σ.regs .a = some value) :
    Runs code [⟨ns, [.call (.routine .byteSet)]⟩] σ (.ok ())
      (σ.setCell sharedId "mem"
        ({ w with data := w.data.setByte offset value.toInt8 } : Window).toNbt) :=
  .call .call (hlib.routine .byteSet ns) (runs_byteSetRoutine hlib h hw hoffset hindex ha) .nil

/-! ## Reading and writing -/

/-- The registers that reading a byte works with. -/
def getRegisters : List Register := .a :: accessRegisters

/-- Reading leaves the byte of the window in `#a`, once the page of the address is in the window. -/
theorem runs_get (hcode : code.Pages gs) (hlib : code.HasLibrary) (hmem : m ∈ allMemories gs)
    (h : P.ShownBy σ) (hw : P.window = some w) (ha : Addressed σ address) :
    match P.swapIn w (allMemories gs) m (pageOf address) with
    | .ok P' => ∃ w' σ', P'.window = some w' ∧
        Runs code [⟨m.id.ns, accessCommands (UInt32.ofNat m.id.index) .byteGet⟩] σ (.ok ()) σ' ∧
        P'.ShownBy σ' ∧ KeepsBut getRegisters σ σ' ∧
        σ'.regs .a = some (w'.data.byte (offsetOf address)).toInt32
    | .error P' => Ends code [⟨m.id.ns, accessCommands (UInt32.ofNat m.id.index) .byteGet⟩]
        getRegisters σ (.error P') := by
  have hreach := access_reaches lasting_anywhere trivial hcode hmem h hw ha .byteGet
  have hsub : accessRegisters ⊆ getRegisters := List.subset_cons_self _ _
  cases hP : P.swapIn w (allMemories gs) m (pageOf address) with
  | error P' =>
    rw [hP] at hreach
    exact hreach.mono hsub
  | ok P' =>
    rw [hP] at hreach
    obtain ⟨σ₁, h₁, hk, -, hindex, hruns⟩ := hreach
    obtain ⟨w', hw'⟩ := Paging.exists_window_of_swapIn hw hP
    have hget : Runs code [⟨m.id.ns, [.call (.routine .byteGet)]⟩] σ₁ (.ok ()) _ :=
      runs_byteGet hlib h₁ hw' (offsetOf_lt address) hindex
    exact ⟨w', _, hw', hruns _ _ hget, h₁.setReg, (hk.mono hsub).setReg (by simp [getRegisters]),
      by simp⟩

/-- Writing changes the byte of the window, once the page of the address is in the window. -/
theorem endsWith_set (hI : Lasting I) (hσ : I σ) (hcode : code.Pages gs) (hlib : code.HasLibrary)
    (hmem : m ∈ allMemories gs) (h : P.ShownBy σ) (hw : P.window = some w)
    (ha : Addressed σ address) {value : Int32} (hvalue : σ.regs .a = some value) :
    EndsWith code [⟨m.id.ns, accessCommands (UInt32.ofNat m.id.index) .byteSet⟩] accessRegisters σ
      (Checked I (w.lastChecked (allMemories gs) m (pageOf address)))
      (P.swapIn w (allMemories gs) m (pageOf address) >>= fun P' =>
        .ok (P'.setWindowByte (offsetOf address) value.toInt8)) := by
  have hreach := access_reaches hI hσ hcode hmem h hw ha .byteSet
  cases hP : P.swapIn w (allMemories gs) m (pageOf address) with
  | error P' =>
    rw [hP] at hreach
    exact hreach
  | ok P' =>
    rw [hP] at hreach
    obtain ⟨σ₁, h₁, hk, hσ₁, hindex, hruns⟩ := hreach
    obtain ⟨w', hw'⟩ := Paging.exists_window_of_swapIn hw hP
    have hvalue₁ : σ₁.regs .a = some value := by rw [hk.regs _ (by simp [accessRegisters]), hvalue]
    have hset : Runs code [⟨m.id.ns, [.call (.routine .byteSet)]⟩] σ₁ (.ok ()) _ :=
      runs_byteSet hlib h₁ hw' (offsetOf_lt address) hindex hvalue₁
    refine ⟨_, hruns _ _ hset, ?_, hk.setCell (by simp), (hI.checked _).setWindow _ hσ₁⟩
    show (P'.setWindowByte (offsetOf address) value.toInt8).ShownBy _
    rw [Paging.setWindowByte_of_window hw']
    exact h₁.setWindow

/-- The same with nothing required besides. -/
theorem ends_set (hcode : code.Pages gs) (hlib : code.HasLibrary) (hmem : m ∈ allMemories gs)
    (h : P.ShownBy σ) (hw : P.window = some w) (ha : Addressed σ address) {value : Int32}
    (hvalue : σ.regs .a = some value) :
    Ends code [⟨m.id.ns, accessCommands (UInt32.ofNat m.id.index) .byteSet⟩] accessRegisters σ
      (P.swapIn w (allMemories gs) m (pageOf address) >>= fun P' =>
        .ok (P'.setWindowByte (offsetOf address) value.toInt8)) :=
  (endsWith_set lasting_anywhere trivial hcode hlib hmem h hw ha hvalue).ends

end Machine

end WasmPack
