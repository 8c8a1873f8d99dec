/-
  WasmPack.Proofs.Paging.Isolation

  What reading a memory reveals.  An address in a page that the memory may have
  shows the memory's own byte.  An address beyond shows what happens to be in
  the window: it is marked as the wanted page, but nothing is loaded into it, so
  a byte of another memory can be seen there.
-/
import WasmPack.Proofs.Paging.Bytes
import WasmPack.Proofs.Paging.Preparation

namespace WasmPack

open Machine Compile

/-! ## What is loaded -/

namespace Paging

variable {P Q : Paging} {w : Window} {m m' : PagedMemory} {ms : List PagedMemory} {page k : Nat}
  {id id' : MemoryId} {data : Page}

/-- Storing the window changes no page of a memory but the one that is in the window. -/
theorem page?_of_store (h : P.store w m = .ok Q)
    (hne : id ≠ m.id ∨ w.page.toInt ≠ page) :
    Q.page? id page = P.page? id page := by
  unfold store at h
  split at h
  · rename_i hrange
    split at h
    · cases h
      exact page?_setPage_of_ne (hne.imp_right fun hpage heq => hpage (by omega))
    · cases h
  · cases h
    rfl

/-- Storing the window, whoever owns it, changes no page but the one that is in the window. -/
theorem page?_of_flush (hms : ∀ m' ∈ ms, m'.id.mark = id.mark → m'.id = id)
    (h : P.flush w ms = .ok Q) (hne : w.owner = id.mark → w.page.toInt ≠ page) :
    Q.page? id page = P.page? id page := by
  induction ms generalizing P with
  | nil =>
    cases h
    rfl
  | cons m ms ih =>
    rw [flush_cons] at h
    obtain ⟨P₁, h₁, h⟩ := except_bind_eq_ok.1 h
    rw [ih (fun m' hm' => hms m' (List.mem_cons_of_mem m hm')) h]
    unfold storeIfOwner at h₁
    split at h₁
    · rename_i howner
      refine page?_of_store h₁ ?_
      by_cases hid : id = m.id
      · exact .inr (hne (by rw [howner, hid]))
      · exact .inl hid
    · cases h₁
      rfl

/-- The bytes in the window once the wanted page has been swapped in. -/
def seen (P : Paging) (w : Window) (m : PagedMemory) (page : Nat) : Option Page :=
  if w.owner = m.id.mark ∧ w.page = Int32.ofNat page then some w.data
  else if page < m.max.toNat then P.page? m.id page
  else some w.data

/-- Loading a page leaves its bytes in the window; but a page that the memory cannot have leaves
    the bytes that were there. -/
theorem data_of_swapIn (hms : ∀ m' ∈ ms, m'.id.mark = m.id.mark → m'.id = m.id)
    (hpage : page < 65536) (hw : P.window = some w) (h : P.swapIn w ms m page = .ok Q) :
    ∃ w', Q.window = some w' ∧ P.seen w m page = some w'.data := by
  unfold swapIn at h
  unfold seen
  split at h
  · rename_i hown
    cases h
    exact ⟨w, hw, if_pos hown⟩
  · rename_i hown
    rw [if_neg hown]
    obtain ⟨P₁, h₁, h⟩ := except_bind_eq_ok.1 h
    have hsame : P₁.page? m.id page = P.page? m.id page := by
      refine page?_of_flush hms h₁ fun howner heq => hown ⟨howner, ?_⟩
      have hint : (Int32.ofNat page).toInt = page := Int32.toInt_ofNat_of_lt (by omega)
      exact Int32.toInt_inj.1 (heq.trans hint.symm)
    unfold load at h
    split at h
    · rename_i hmax
      rw [if_pos hmax, ← hsame]
      split at h
      · rename_i data hdata
        cases h
        exact ⟨_, rfl, hdata⟩
      · cases h
    · rename_i hmax
      rw [if_neg hmax]
      cases h
      exact ⟨_, rfl, rfl⟩

end Paging

/-! ## Agreement -/

/-- The memories agree on everything but the bytes of other memories: on the mark of the window
    and its page, on its bytes while it belongs to the memory, on how many memories and pages there
    are, and on the pages of the memory. -/
structure Paging.AgreeBesides (id : MemoryId) (P Q : Paging) : Prop where
  window : (P.window.map fun w => (w.owner, w.page)) = Q.window.map fun w => (w.owner, w.page)
  own : ∀ v w, P.window = some v → Q.window = some w → v.owner = id.mark → v.data = w.data
  sizes : ∀ ns, (P.mems ns).map List.length = (Q.mems ns).map List.length
  pages : ∀ page, P.page? id page = Q.page? id page

/-- The states agree on everything but the bytes of other memories. -/
structure Machine.State.AgreeBesides (id : MemoryId) (σ τ : State) : Prop where
  regs : σ.regs = τ.regs
  cells : ∀ storage key, ¬(storage = sharedId ∧ key = "mem") →
    ¬((∃ ns, storage = ownId ns) ∧ key = "mems") → σ.cells storage key = τ.cells storage key
  paging : ∃ P Q : Paging, P.ShownBy σ ∧ Q.ShownBy τ ∧ P.AgreeBesides id Q

/-- The machines agree on everything but the bytes of other memories. -/
def Machine.AgreeBesides (id : MemoryId) (s t : Machine) : Prop :=
  ∃ σ τ, s.store.Models σ ∧ t.store.Models τ ∧ σ.AgreeBesides id τ

namespace Paging.AgreeBesides

variable {P Q : Paging} {v w : Window} {m : PagedMemory} {page : Nat}

/-- Where memories agree, the same bytes are seen, or else both machines see the window. -/
theorem seen_eq (h : P.AgreeBesides m.id Q) (hv : P.window = some v) (hw : Q.window = some w) :
    (page < m.max.toNat ∧ P.seen v m page = Q.seen w m page) ∨
      (m.max.toNat ≤ page ∧ P.seen v m page = some v.data ∧ Q.seen w m page = some w.data) := by
  have hlabel := h.window
  rw [hv, hw, Option.map_some, Option.map_some, Option.some.injEq, Prod.mk.injEq] at hlabel
  unfold seen
  rw [← hlabel.1, ← hlabel.2]
  by_cases hpage : page < m.max.toNat
  · refine .inl ⟨hpage, ?_⟩
    by_cases hown : v.owner = m.id.mark ∧ v.page = Int32.ofNat page
    · rw [if_pos hown, if_pos hown, h.own v w hv hw hown.1]
    · rw [if_neg hown, if_neg hown, if_pos hpage, if_pos hpage, h.pages page]
  · refine .inr ⟨by omega, ?_, ?_⟩
    · rw [if_neg hpage]
      split <;> rfl
    · rw [if_neg hpage]
      split <;> rfl

/-- Writing to the window while it belongs to another memory. -/
theorem setWindowByte {id : MemoryId} {offset : Nat} {a b : Int8} (hw : P.window = some w)
    (hne : w.owner ≠ id.mark) :
    (P.setWindowByte offset a).AgreeBesides id (P.setWindowByte offset b) where
  window := by
    rw [setWindowByte_of_window hw, setWindowByte_of_window hw]
    rfl
  own v u hv _ howner := by
    rw [setWindowByte_of_window hw] at hv
    cases hv
    exact absurd howner hne
  sizes _ := rfl
  pages _ := rfl

end Paging.AgreeBesides

/-! ## Reading -/

namespace Machine

variable {code : Code} {P : Paging} {σ : State} {w : Window} {m : PagedMemory}
  {gs : List MemoryGroup} {address : UInt32} {n : Int32} {ns : String} {i max : UInt32}
  {r : Routine}

/-- An access needs the constant size of a page. -/
theorem access_needs_const (hindex : σ.regs .index = some n)
    (hconst : σ.regs (.const (Int32.ofNat pageSize)) = none) :
    ∃ e σ', Runs code [⟨ns, accessCommands i r⟩] σ (.error e) σ' := by
  have h₁ : Steps code.tags ns (.copy .targetAddress .index) σ [] (σ.setReg .targetAddress n) :=
    steps_copy hindex
  have h₂ : Steps code.tags ns (.copy .targetPage .index) (σ.setReg .targetAddress n) []
      ((σ.setReg .targetAddress n).setReg .targetPage n) :=
    steps_copy hindex
  have hconst₂ : ((σ.setReg .targetAddress n).setReg .targetPage n).regs
      (.const (Int32.ofNat pageSize)) = none := hconst
  exact ⟨_, _, .plain h₁ (.plain h₂ (.fault (Faults.plain (.operation _ _ _)
    (Fails.read hconst₂).bind_left)))⟩

/-- An access needs a window. -/
theorem access_needs_window (hmem : code.HasMemory m) (h : P.ShownBy σ) (hw : P.window = none)
    (ha : Addressed σ address) :
    ∃ e σ', Runs code [⟨m.id.ns, accessCommands (UInt32.ofNat m.id.index) r⟩] σ (.error e) σ' := by
  have hset : ∀ τ : State, Steps code.tags m.id.ns (.setScore .pageFault 0) τ []
      (τ.setReg .pageFault 0) := fun τ => steps_setScore
  have hfind : code.function ((Symbol.memory (UInt32.ofNat m.id.index) .swapIn).qualifiedName
      m.id.ns) = .ok ⟨m.id.ns, swapInCommands m.id.ns (UInt32.ofNat m.id.index) m.max⟩ :=
    hmem.operation (by simp [pagedSequences])
  have hcopy : ∀ {τ : State}, P.ShownBy τ → Fails τ
      (step code.tags m.id.ns (.setFrom scratch windowId)) _ τ := fun hτ =>
    Faults.plain (.setFrom _ _) (Fails.require ⟨_, _, rfl⟩ (hτ.lookup_windowId_none hw)).bind_left
  exact ⟨_, _, runs_targetPage ha (.call_fault .call hfind (.plain (hset _)
    (.fault (hcopy h.setReg.setReg.setReg))))⟩

/-- Where reading completes, the bytes of the wanted page are seen. -/
theorem reads_seen (hcode : code.Pages gs) (hlib : code.HasLibrary) (hmem : m ∈ allMemories gs)
    (hms : ∀ m' ∈ allMemories gs, m'.id.mark = m.id.mark → m'.id = m.id) {s s' : Store}
    (hs : s.Models σ) (hσ : Tidy σ) (h : P.ShownBy σ) (hindex : σ.regs .index = some address.toInt32)
    {limit gas : Nat}
    (hrun : run code limit 0 [⟨m.id.ns, accessCommands (UInt32.ofNat m.id.index) .byteGet⟩] s =
      ⟨.ok (), gas, s'⟩) :
    ∃ w data, P.window = some w ∧ P.seen w m (pageOf address) = some data ∧
      s'.scores.get? .a = some (data.byte (offsetOf address)).toInt32 := by
  -- The run came to its end, so that none of the ways in which it fails can have been taken.
  have hcomplete : ∀ {r σ'}, Runs code _ σ r σ' → .ok () = r ∧ s'.Models σ' := fun hr =>
    hr.of_run hs (Nat.zero_le _) hrun (fun _ hl => nomatch hl)
  have hconst : σ.regs (.const (Int32.ofNat pageSize)) = some (Int32.ofNat pageSize) := by
    obtain hnone | hsome := hσ.consts (Int32.ofNat pageSize)
    · obtain ⟨e, σ', hr⟩ := access_needs_const
        (i := UInt32.ofNat m.id.index) (r := .byteGet) hindex hnone
      cases (hcomplete hr).1
    · exact hsome
  have ha : Addressed σ address := ⟨hconst, hindex⟩
  cases hw : P.window with
  | none =>
    obtain ⟨e, σ', hr⟩ := access_needs_window (r := .byteGet) (hcode.hasMemory m hmem) h hw ha
    cases (hcomplete hr).1
  | some w =>
    have hget := runs_get hcode hlib hmem h hw ha
    cases hP : P.swapIn w (allMemories gs) m (pageOf address) with
    | error P' =>
      rw [hP] at hget
      obtain ⟨path, σ', hr, -⟩ := hget
      cases (hcomplete hr).1
    | ok P' =>
      rw [hP] at hget
      obtain ⟨w', σ', hw', hr, -, -, hbyte⟩ := hget
      obtain ⟨w'', hw'', hseen⟩ := Paging.data_of_swapIn hms (pageOf_lt address) hw hP
      cases hw'.symm.trans hw''
      refine ⟨w, w'.data, rfl, hseen, ?_⟩
      rw [(hcomplete hr).2.regs]
      exact hbyte

/-! ## Isolation -/

/-- A byte in the window. -/
def windowSlot (machine : Machine) (offset : Nat) : Option Nbt.Slot :=
  machine.store.lookup sharedNamespace (Library.windowByte offset)

theorem windowSlot_eq {machine : Machine} (hs : machine.store.Models σ) (h : P.ShownBy σ)
    (hw : P.window = some w) {offset : Nat} (hoffset : offset < pageSize) :
    machine.windowSlot offset = some (.element (w.data.byte offset)) := by
  rw [windowSlot, hs.lookup ⟨_, _, rfl⟩]
  exact lookup_windowByte h hw hoffset

/-- A call that completes is a run that completes. -/
theorem run_of_call {s s' : Machine} {name : String} {f : Function}
    (hf : s.code.function name = .ok f) (h : call name s = .ok () s') :
    ∃ gas, run s.code s.gasLimit 0 [f] s.store = ⟨.ok (), gas, s'.store⟩ := by
  obtain ⟨code, store, g, limit⟩ := s
  unfold call at h
  simp only [hf] at h
  unfold runFunction at h
  cases hrun : run code limit 0 [f] store with
  | mk outcome gas store' =>
    simp only [hrun] at h
    cases outcome with
    | error e => cases h
    | ok u =>
      cases h
      exact ⟨gas, rfl⟩

theorem toInt32_inj {a b : Int8} : a.toInt32 = b.toInt32 ↔ a = b := by
  constructor
  · intro h
    have hint := congrArg Int32.toInt h
    rwa [Int8.toInt_toInt32, Int8.toInt_toInt32, Int8.toInt_inj] at hint
  · rintro rfl
    rfl

/-- Two machines that agree on everything but the bytes of other memories read the same byte of a
    memory exactly if the address lies in a page that the memory may have, or their windows happen
    to hold the same byte at its offset. -/
theorem get_eq_iff {parts : List Part} {s t s' t' : Machine} (hparts : Orderly parts)
    (hm : m ∈ allMemories (groupsOf parts)) (hs : Reached parts s) (ht : Reached parts t)
    (hagree : AgreeBesides m.id s t) (haddress : s.score? .index = some address.toInt32)
    (hs' : call (m.operation .get) s = .ok () s') (ht' : call (m.operation .get) t = .ok () t') :
    s'.score? .a = t'.score? .a ↔ pageOf address < m.max.toNat ∨
      s.windowSlot (offsetOf address) = t.windowSlot (offsetOf address) := by
  obtain ⟨σ, τ, hσ, hτ, hστ⟩ := hagree
  obtain ⟨P, Q, hP, hQ, hPQ⟩ := hστ.paging
  -- Both machines have the same code, in which the memory and the library are found.
  have hcode : ∀ {u : Machine}, Reached parts u → u.code.Pages (groupsOf parts) ∧
      u.code.HasLibrary := by
    intro u hu
    obtain ⟨ps, hps, hcode⟩ := hu.exists_programs
    rw [hcode]
    exact ⟨hparts.pages hps, hparts.hasLibrary hps⟩
  have hms : ∀ m' ∈ allMemories (groupsOf parts), m'.id.mark = m.id.mark → m'.id = m.id := by
    obtain ⟨ps, hps, -⟩ := hs.exists_programs
    exact fun m' hm' hmark => hps.mark_inj hm' hm hmark
  have hread : ∀ {u u' : Machine} {υ : State} {R : Paging}, Reached parts u →
      u.store.Models υ → R.ShownBy υ → υ.regs .index = some address.toInt32 →
      call (m.operation .get) u = .ok () u' → ∃ w data, R.window = some w ∧
        R.seen w m (pageOf address) = some data ∧
        u'.score? .a = some (data.byte (offsetOf address)).toInt32 := by
    intro u u' υ R hu hυ hR hindex hu'
    obtain ⟨hpages, hlib⟩ := hcode hu
    obtain ⟨υ', hυ', htidy⟩ := hu.tidy
    cases hυ.unique hυ'
    obtain ⟨gas, hrun⟩ := run_of_call (hpages.hasMemory m hm).get hu'
    exact reads_seen hpages hlib hm hms hυ htidy hR hindex hrun
  have hindex : σ.regs .index = some address.toInt32 := (hσ.regs .index).symm.trans haddress
  obtain ⟨v, data, hv, hseen, hbyte⟩ := hread hs hσ hP hindex hs'
  obtain ⟨w, data', hw, hseen', hbyte'⟩ := hread ht hτ hQ (hστ.regs ▸ hindex) ht'
  rw [hbyte, hbyte', windowSlot_eq hσ hP hv (offsetOf_lt address),
    windowSlot_eq hτ hQ hw (offsetOf_lt address), Option.some.injEq, toInt32_inj,
    Option.some.injEq, Nbt.Slot.element.injEq]
  obtain ⟨hpage, hdata⟩ | ⟨hpage, hdata, hdata'⟩ := hPQ.seen_eq hv hw
  · rw [hseen, hseen', Option.some.injEq] at hdata
    rw [hdata]
    exact ⟨fun _ => .inl hpage, fun _ => rfl⟩
  · cases hseen.symm.trans hdata
    cases hseen'.symm.trans hdata'
    exact ⟨.inr, fun h => h.resolve_left (by omega)⟩

/-! ## Two memories -/

/-- A module with two memories of one page. -/
def twinModule : Wasm.Module := memoriesModule [⟨1, some 1⟩, ⟨1, some 1⟩]

/-- The module beside the library. -/
def twinParts : List Part := [.library, .module "demo" twinModule]

/-- The memory that is read. -/
def readTwin : PagedMemory := ⟨⟨"demo", 0⟩, 1⟩

/-- The memory that is written. -/
def writtenTwin : PagedMemory := ⟨⟨"demo", 1⟩, 1⟩

theorem orderly_twinParts : Orderly twinParts := orderly_memoriesModule (by decide)

theorem allMemories_twinParts : allMemories (groupsOf twinParts) = [readTwin, writtenTwin] := by
  decide

theorem readTwin_mem : readTwin ∈ allMemories (groupsOf twinParts) := by
  rw [allMemories_twinParts]
  exact List.mem_cons_self

theorem writtenTwin_mem : writtenTwin ∈ allMemories (groupsOf twinParts) := by
  rw [allMemories_twinParts]
  exact List.mem_cons_of_mem _ List.mem_cons_self

/-- Registers are set to zero. -/
def State.zeroed (σ : State) (rs : List Register) : State := rs.foldl (fun σ r => σ.setReg r 0) σ

theorem State.regs_zeroed {rs : List Register} {q : Register} :
    (σ.zeroed rs).regs q = if q ∈ rs then some 0 else σ.regs q := by
  induction rs generalizing σ with
  | nil => rfl
  | cons r rs ih =>
    show ((σ.setReg r 0).zeroed rs).regs q = _
    rw [ih, State.regs_setReg]
    by_cases hq : q ∈ rs
    · rw [if_pos hq, if_pos (List.mem_cons_of_mem r hq)]
    · rw [if_neg hq]
      simp only [List.mem_cons, hq, or_false]

/-- A host can set registers to zero that are not constants. -/
theorem CanReach.zeroed {parts : List Part} {rs : List Register} (h : CanReach parts code σ)
    (hrs : ∀ r ∈ rs, r.isWork = true) : CanReach parts code (σ.zeroed rs) := by
  induction rs generalizing σ with
  | nil => exact h
  | cons r rs ih =>
    exact ih (h.setReg (hrs r List.mem_cons_self) 0) fun q hq =>
      hrs q (List.mem_cons_of_mem r hq)

/-- Nothing differs from another state but registers, the window and what is looked at, and the
    pages of modules. -/
def SameElsewhere (ρ σ : State) : Prop :=
  ∀ storage key, ¬(storage = sharedId ∧ key = "mem") →
    ¬((∃ ns, storage = ownId ns) ∧ key = "mems") → ¬(storage = sharedId ∧ key = "tmp") →
    σ.cells storage key = ρ.cells storage key

theorem lasting_sameElsewhere (ρ : State) : Lasting (SameElsewhere ρ) where
  setReg _ hσ := hσ
  setWindow _ hσ storage key hm hs ht := by
    rw [State.cells_setCell, if_neg hm, hσ storage key hm hs ht]
  setPages ns _ hσ storage key hm hs ht := by
    rw [State.cells_setCell, if_neg fun hk => hs ⟨⟨ns, hk.1⟩, hk.2⟩, hσ storage key hm hs ht]
  setScratch _ hσ storage key hm hs ht := by
    rw [State.cells_setCell, if_neg ht, hσ storage key hm hs ht]

/-- Once the module has been booted, the page of its second memory can be loaded. -/
theorem exists_swapIn_written : ∃ ps σ P Q, Part.Give twinParts ps ∧
    CanReach twinParts (ps.foldl Code.addProgram {}) σ ∧ Paging.ShownBy P σ ∧
    P.window = some Window.blank ∧ (∀ n ∈ Register.seeded, σ.regs (.const n) = some n) ∧
    P.swapIn Window.blank (allMemories (groupsOf twinParts)) writtenTwin 0 = .ok Q ∧
    Q.Sound ⟨Page.zero, writtenTwin.id.mark, 0⟩ (allMemories (groupsOf twinParts)) := by
  obtain ⟨p, c, hinit, hspaces⟩ : ∃ p, ∃ c : Compiled "demo" twinModule p,
      c.init = initHead c.spaces ∧ c.spaces = IndexSpaces.declared twinModule :=
    exists_compiled_memoriesModule rfl (by decide)
  obtain ⟨ps, σ, hps, hσ, hP, hconsts, -⟩ :=
    c.exists_boot hinit (fun e he => nomatch he) orderly_twinParts
  have hpages : ∀ m ∈ allMemories (groupsOf twinParts), m.max = 1 ∧ ∀ page,
      (firstPaging "demo" c.spaces).page? m.id page = [Page.zero][page]? := by
    rw [hspaces, allMemories_twinParts]
    intro m hm
    obtain rfl | rfl := by simpa using hm
    all_goals exact ⟨rfl, fun _ => rfl⟩
  have hsound : (firstPaging "demo" c.spaces).Sound Window.blank
      (allMemories (groupsOf twinParts)) := by
    refine Paging.sound_of_empty_owner rfl rfl fun m hm page hpage => ?_
    rw [(hpages m hm).2] at hpage
    rw [(hpages m hm).1]
    simpa using hpage
  have hcurrent : (firstPaging "demo" c.spaces).current Window.blank writtenTwin.id 0 =
      some Page.zero := by
    unfold Paging.current
    rw [(hpages _ writtenTwin_mem).2]
    rfl
  obtain ⟨Q, hQ, hQsound, -⟩ :=
    Paging.exists_swapIn (orderly_twinParts.marked hps) hsound writtenTwin_mem hcurrent
  exact ⟨ps, σ, _, Q, hps, hσ, hP, rfl, hconsts, hQ, hQsound⟩

/-- Writing different values to a byte of the second memory leaves states that differ only there:
    in the window, which belongs to that memory. -/
theorem exists_written : ∃ ps Q data ρ, Part.Give twinParts ps ∧
    Paging.Sound Q ⟨data, writtenTwin.id.mark, 0⟩ (allMemories (groupsOf twinParts)) ∧
    ∀ value : Int32, ∃ σ, CanReach twinParts (ps.foldl Code.addProgram {}) σ ∧
      (Q.setWindowByte 0 value.toInt8).ShownBy σ ∧ σ.regs = State.regs ρ ∧
      Addressed σ 65536 ∧
      ∀ storage key, ¬(storage = sharedId ∧ key = "mem") →
        ¬((∃ ns, storage = ownId ns) ∧ key = "mems") →
        σ.cells storage key = State.cells ρ storage key := by
  obtain ⟨ps, σ, P, Q, hps, hσ, hP, hw, hconsts, hQ, hQsound⟩ := exists_swapIn_written
  have hpages := orderly_twinParts.pages hps
  -- The byte is written at address 0, which is on the page that the window holds, and the index is
  -- set to the address behind the last page.
  let checked := lastChecked writtenTwin.id (allMemories (groupsOf twinParts))
  let ρ := ((σ.zeroed getRegisters).setReg .index 65536).setCell sharedId "tmp" (.text checked.mark)
  refine ⟨ps, Q, Page.zero, ρ, hps, hQsound, fun value => ?_⟩
  let σ₁ := (σ.setReg .a value).setReg .index 0
  have ha : Addressed σ₁ 0 := ⟨hconsts _ (by decide), by simp [σ₁]⟩
  have hvalue : σ₁.regs .a = some value := by simp [σ₁]
  have hsame : SameElsewhere σ σ₁ := fun _ _ _ _ _ => rfl
  obtain ⟨σ₂, hr, hs, hk, hsame₂, htmp⟩ :
      EndsWith _ _ _ σ₁ _ (.ok (Q.setWindowByte 0 value.toInt8)) := by
    have hset := endsWith_set (lasting_sameElsewhere σ) hsame hpages
      (orderly_twinParts.hasLibrary hps) writtenTwin_mem hP.setReg.setReg hw ha hvalue
    rw [show pageOf 0 = 0 from rfl, hQ] at hset
    exact hset
  have hname := (hpages.hasMemory _ writtenTwin_mem).set
  -- All registers that the writing has changed are set to zero, so that the state depends on the
  -- value in the window alone.
  have hregs : ∀ r, ((σ₂.zeroed getRegisters).setReg .index 65536).regs r = ρ.regs r := by
    intro r
    show _ = ((σ.zeroed getRegisters).setReg .index 65536).regs r
    rw [State.regs_setReg, State.regs_setReg, State.regs_zeroed, State.regs_zeroed]
    by_cases hr : r ∈ getRegisters
    · rw [if_pos hr, if_pos hr]
    · have ha : r ≠ .a := fun h => hr (h ▸ List.mem_cons_self)
      have haccess : r ∉ accessRegisters := fun h => hr (List.mem_cons_of_mem _ h)
      have hindex : r ≠ .index := fun h => haccess (h ▸ List.mem_cons_self)
      rw [if_neg hr, if_neg hr, hk.regs r haccess]
      simp only [σ₁, State.regs_setReg, if_neg ha, if_neg hindex]
  have hreach := ((hσ.setReg rfl value).setReg rfl 0).call hname hr
  refine ⟨_, (hreach.zeroed (by decide)).setReg rfl 65536, hs.congr rfl fun _ => rfl,
    funext hregs, ⟨?_, ?_⟩, fun storage key hm hpages => ?_⟩
  · have hconst : Register.const (Int32.ofNat pageSize) ∉ getRegisters := by decide
    rw [hregs, ← hconsts (Int32.ofNat pageSize) (by decide)]
    simp [ρ, State.regs_zeroed, hconst]
  · simp
  · show σ₂.cells storage key = ρ.cells storage key
    rw [State.cells_setCell]
    split
    · rename_i hkey
      rw [hkey.1, hkey.2, htmp]
      rfl
    · rename_i hkey
      exact hsame₂ storage key hm hpages fun h => hkey h

/-- Two machines that differ in a byte of one memory read different bytes of another one at an
    address beyond its only page. -/
theorem get_eq_iff_beyond_page : ∃ s t s' t' : Machine, Orderly twinParts ∧
    readTwin ∈ allMemories (groupsOf twinParts) ∧ Reached twinParts s ∧ Reached twinParts t ∧
    AgreeBesides readTwin.id s t ∧ s.score? .index = some (65536 : UInt32).toInt32 ∧
    call (readTwin.operation .get) s = .ok () s' ∧ call (readTwin.operation .get) t = .ok () t' ∧
    s'.score? .a ≠ t'.score? .a := by
  obtain ⟨ps, Q, data, ρ, hps, hQ, hwritten⟩ := exists_written
  have hpages := orderly_twinParts.pages hps
  have hlib := orderly_twinParts.hasLibrary hps
  have hmarked := orderly_twinParts.marked hps
  have hsame : ∀ m ∈ allMemories (groupsOf twinParts), m.id = readTwin.id → m.max = readTwin.max := by
    rw [allMemories_twinParts]
    decide
  -- Reading completes behind every value that was written.
  have hread : ∀ value : Int32, ∃ s s' σ, Reached twinParts s ∧ s.store.Models σ ∧
      (Q.setWindowByte 0 value.toInt8).ShownBy σ ∧ σ.regs = State.regs ρ ∧
      (∀ storage key, ¬(storage = sharedId ∧ key = "mem") →
        ¬((∃ ns, storage = ownId ns) ∧ key = "mems") →
        σ.cells storage key = State.cells ρ storage key) ∧
      σ.regs .index = some (65536 : UInt32).toInt32 ∧
      call (readTwin.operation .get) s = .ok () s' := by
    intro value
    obtain ⟨σ, hσ, hshown, hregs, ha, hcells⟩ := hwritten value
    have hsound : (Q.setWindowByte 0 value.toInt8).Sound _ _ := Paging.sound_setWindowByte hQ
    have hbeyond : readTwin.max.toNat ≤ pageOf 65536 := by decide
    obtain ⟨Q', hQ', -⟩ := Paging.exists_swapIn_beyond hmarked hsound readTwin_mem hsame hbeyond
      (pageOf_lt _)
    have hget := runs_get hpages hlib readTwin_mem hshown hsound.window ha
    rw [hQ'] at hget
    obtain ⟨w', σ', -, hr, -⟩ := hget
    obtain ⟨m, m', hm, -, hmodels, hcall, -⟩ :=
      hσ.exists_call (hpages.hasMemory _ readTwin_mem).get hr
    exact ⟨m, m', σ, hm, hmodels, hshown, hregs, hcells, ha.index, hcall⟩
  obtain ⟨s, s', σ, hs, hσ, hP, hσregs, hσcells, hindex, hs'⟩ := hread 0
  obtain ⟨t, t', τ, ht, hτ, hP', hτregs, hτcells, -, ht'⟩ := hread 42
  have hother : writtenTwin.id.mark ≠ readTwin.id.mark := by decide
  have hagree : AgreeBesides readTwin.id s t :=
    ⟨σ, τ, hσ, hτ, hσregs.trans hτregs.symm, fun storage key hm hs =>
      (hσcells storage key hm hs).trans (hτcells storage key hm hs).symm, _, _, hP, hP',
      .setWindowByte hQ.window hother⟩
  have haddress : s.score? .index = some (65536 : UInt32).toInt32 := (hσ.regs .index).trans hindex
  refine ⟨s, t, s', t', orderly_twinParts, readTwin_mem, hs, ht, hagree, haddress, hs', ht', ?_⟩
  rw [Ne, get_eq_iff orderly_twinParts readTwin_mem hs ht hagree haddress hs' ht']
  rintro (hpage | hslot)
  · exact absurd hpage (by decide)
  · have hzero : offsetOf 65536 < pageSize := by decide
    rw [windowSlot_eq hσ hP (Paging.sound_setWindowByte hQ).window hzero,
      windowSlot_eq hτ hP' (Paging.sound_setWindowByte hQ).window hzero] at hslot
    simp only [show offsetOf 65536 = 0 from rfl, Page.byte_setByte_self (by decide : 0 < pageSize)] at hslot
    cases hslot

end Machine

end WasmPack
