/-
  WasmPack.Proofs.Paging.Bytes

  Memories as bytes at addresses.

  A byte of a memory lies in the window while its page is there, and in the page
  otherwise.  Where the window can be stored, an access brings the page of its
  address into the window and changes no byte; what is then written to the window
  is written to that address.
-/
import WasmPack.Proofs.Paging.Operations
import WasmPack.Proofs.Paging.Parts

namespace WasmPack

open Machine Compile

/-- The bytes of memories, at the addresses in their pages. -/
abbrev Bytes := MemoryId → UInt32 → Option UInt8

/-- Another byte at an address of a memory. -/
def Bytes.set (B : Bytes) (id : MemoryId) (address : UInt32) (b : UInt8) : Bytes :=
  Function.update B id (Function.update (B id) address (some b))

theorem Bytes.set_apply {B : Bytes} {id id' : MemoryId} {address address' : UInt32} {b : UInt8} :
    B.set id address b id' address' =
      if id' = id ∧ address' = address then some b else B id' address' := by
  unfold set
  by_cases hid : id' = id
  · subst hid
    by_cases ha : address' = address
    · subst ha
      simp
    · simp [ha]
  · simp [hid]

/-- A page number and an offset make an address. -/
theorem eq_of_pageOf_offsetOf {x y : UInt32} (hpage : pageOf x = pageOf y)
    (hoffset : offsetOf x = offsetOf y) : x = y := by
  unfold pageOf at hpage
  unfold offsetOf at hoffset
  rw [← UInt32.toNat_inj, ← Nat.div_add_mod x.toNat pageSize, hpage, hoffset, Nat.div_add_mod]

namespace Paging

variable {P Q : Paging} {w : Window} {m m' : PagedMemory} {ms ls : List PagedMemory}
  {page page' k : Nat} {id id' : MemoryId} {data : Page} {address address' : UInt32}

/-! ## What a memory holds -/

/-- The window holds a page of a memory. -/
def Holds (w : Window) (id : MemoryId) (page : Nat) : Prop :=
  w.owner = id.mark ∧ w.page.toInt = page

instance (w : Window) (id : MemoryId) (page : Nat) : Decidable (Holds w id page) :=
  inferInstanceAs (Decidable (_ ∧ _))

/-- The bytes of a page that is there, in the window or at its own place. -/
def current (P : Paging) (w : Window) (id : MemoryId) (page : Nat) : Option Page :=
  (P.page? id page).map fun data => if Holds w id page then w.data else data

/-- The bytes of the memories. -/
def bytes (P : Paging) (w : Window) : Bytes := fun id address =>
  (P.current w id (pageOf address)).map fun data => (data.byte (offsetOf address)).toUInt8

/-- The window can be stored: if its owner can have the page in it, the page is there.  And no
    memory has more pages than it can have. -/
structure Sound (P : Paging) (w : Window) (ms : List PagedMemory) : Prop where
  window : P.window = some w
  stored : ∀ m ∈ ms, ∀ page, page < m.max.toNat → Holds w m.id page → (P.page? m.id page).isSome
  bounded : ∀ m ∈ ms, ∀ page, (P.page? m.id page).isSome → page < m.max.toNat

/-- The marks of memories tell them apart, and page numbers fit into registers. -/
structure Marked (ms : List PagedMemory) : Prop where
  apart : ∀ m ∈ ms, ∀ m' ∈ ms, m.id.mark = m'.id.mark → m.id = m'.id
  fits : ∀ m ∈ ms, m.Fits

/-- The window of the page of a memory that has just been loaded holds no other. -/
theorem holds_iff (hpage : page < 65536) (hmark : id.mark = id'.mark ↔ id = id') :
    Holds ⟨data, id.mark, Int32.ofNat page⟩ id' page' ↔ id = id' ∧ page = page' := by
  have hint : (Int32.ofNat page).toInt = page := Int32.toInt_ofNat_of_lt (by omega)
  show id.mark = id'.mark ∧ (Int32.ofNat page).toInt = page' ↔ _
  rw [hmark, hint, Int.natCast_inj]

/-! ## Storing the window -/

/-- The page itself has the new bytes, if it is there at all. -/
theorem page?_setPage_self :
    (P.setPage id k data).page? id k = (P.page? id k).map fun _ => data := by
  unfold setPage setPages setMems page?
  simp only [Function.update_self, List.getElem?_set]
  cases hpages : (P.mems id.ns)[id.index]? with
  | none =>
    have hge := List.getElem?_eq_none_iff.1 hpages
    rw [if_pos trivial, if_neg (by omega)]
    rfl
  | some pages =>
    obtain ⟨hlt, -⟩ := List.getElem?_eq_some_iff.1 hpages
    rw [if_pos trivial, if_pos hlt, Option.bind_some, Option.bind_some, Option.getD_some,
      List.getElem?_set_self']
    cases pages[k]? <;> rfl

/-- Another page is the same as before. -/
theorem page?_setPage_of_ne (h : id ≠ id' ∨ page ≠ k) :
    (P.setPage id' k data).page? id page = P.page? id page := by
  unfold setPage setPages setMems page?
  by_cases hns : id.ns = id'.ns
  · rw [hns]
    simp only [Function.update_self]
    by_cases hi : id.index = id'.index
    · have hpage : page ≠ k := by
        obtain h | h := h
        · refine absurd ?_ h
          cases id
          cases id'
          simp_all
        · exact h
      rw [hi, List.getElem?_set]
      cases hpages : (P.mems id'.ns)[id'.index]? with
      | none =>
        have hge := List.getElem?_eq_none_iff.1 hpages
        rw [if_pos rfl, if_neg (by omega)]
      | some pages =>
        obtain ⟨hlt, -⟩ := List.getElem?_eq_some_iff.1 hpages
        rw [if_pos rfl, if_pos hlt, Option.bind_some, Option.bind_some, Option.getD_some,
          List.getElem?_set_ne (Ne.symm hpage)]
    · rw [List.getElem?_set_ne (Ne.symm hi)]
  · simp only [Function.update_of_ne hns]

/-- A memory stores the window into the page that it holds. -/
theorem exists_storeIfOwner (hs : ∀ page, page < m.max.toNat → Holds w m.id page →
      (P.page? m.id page).isSome) :
    ∃ Q, P.storeIfOwner w m = .ok Q ∧ ∀ id page, Q.page? id page =
      if id = m.id ∧ page < m.max.toNat ∧ Holds w m.id page then
        (P.page? id page).map fun _ => w.data
      else P.page? id page := by
  unfold storeIfOwner
  by_cases howner : w.owner = m.id.mark
  · rw [if_pos howner]
    unfold store
    by_cases hrange : 0 ≤ w.page.toInt ∧ w.page.toInt < m.max.toNat
    · have hholds : Holds w m.id w.page.toInt.toNat := ⟨howner, by omega⟩
      obtain ⟨old, hold⟩ := Option.isSome_iff_exists.1 (hs _ (by omega) hholds)
      rw [if_pos hrange, hold]
      refine ⟨_, rfl, fun id page => ?_⟩
      split
      · rename_i h
        obtain ⟨rfl, -, -, hpage⟩ := h
        rw [hpage, Int.toNat_natCast]
        exact page?_setPage_self
      · rename_i h
        refine page?_setPage_of_ne ?_
        by_cases hid : id = m.id
        · refine .inr fun hpage => h ⟨hid, by omega, hpage ▸ hholds⟩
        · exact .inl hid
    · rw [if_neg hrange]
      refine ⟨P, rfl, fun id page => ?_⟩
      rw [if_neg fun h => hrange (by have := h.2.2.2; omega)]
  · rw [if_neg howner]
    refine ⟨P, rfl, fun id page => ?_⟩
    rw [if_neg fun h => howner h.2.2.1]

/-- The window is stored by whoever owns it, and then every page has its bytes in place. -/
theorem exists_flush (hs : ∀ m ∈ ms, ∀ page, page < m.max.toNat → Holds w m.id page →
      (P.page? m.id page).isSome) :
    ∃ Q, P.flush w ms = .ok Q ∧ ∀ id page, Q.page? id page =
      if ∃ m ∈ ms, id = m.id ∧ page < m.max.toNat ∧ Holds w m.id page then
        (P.page? id page).map fun _ => w.data
      else P.page? id page := by
  induction ms generalizing P with
  | nil => exact ⟨P, rfl, fun id page => (if_neg (by simp)).symm⟩
  | cons m ms ih =>
    obtain ⟨P₁, h₁, hpages₁⟩ := exists_storeIfOwner (hs m List.mem_cons_self)
    -- Storing takes no page away.
    have hsome : ∀ id page, (P₁.page? id page).isSome = (P.page? id page).isSome := by
      intro id page
      rw [hpages₁]
      split
      · exact Option.isSome_map
      · rfl
    obtain ⟨Q, hQ, hpages⟩ := @ih P₁ fun m' hm' page hlt hh => by
      rw [hsome]
      exact hs m' (List.mem_cons_of_mem m hm') page hlt hh
    refine ⟨Q, ?_, fun id page => ?_⟩
    · rw [flush_cons, h₁]
      exact hQ
    · rw [hpages, hpages₁]
      simp only [List.exists_mem_cons_iff]
      by_cases hfirst : id = m.id ∧ page < m.max.toNat ∧ Holds w m.id page
      · rw [if_pos hfirst, if_pos (c := _ ∨ _) (.inl hfirst)]
        split
        · rw [Option.map_map]
          rfl
        · rfl
      · rw [if_neg hfirst]
        by_cases hrest : ∃ m ∈ ms, id = m.id ∧ page < m.max.toNat ∧ Holds w m.id page
        · rw [if_pos hrest, if_pos (c := _ ∨ _) (.inr hrest)]
        · rw [if_neg hrest, if_neg (not_or.2 ⟨hfirst, hrest⟩)]

/-! ## Loading a page -/

/-- Once the window has been stored, the pages are what the memories hold. -/
theorem page?_of_exists_flush (hP : P.Sound w ms) (hm : m ∈ ms) (page : Nat) :
    (if ∃ m' ∈ ms, m.id = m'.id ∧ page < m'.max.toNat ∧ Holds w m'.id page then
        (P.page? m.id page).map fun _ => w.data
      else P.page? m.id page) = P.current w m.id page := by
  unfold current
  cases hpage : P.page? m.id page with
  | none => split <;> rfl
  | some data =>
    have hlt := hP.bounded m hm page (by rw [hpage]; rfl)
    by_cases hh : Holds w m.id page
    · rw [if_pos ⟨m, hm, rfl, hlt, hh⟩, Option.map_some, Option.map_some, if_pos hh]
    · have hnone : ¬∃ m' ∈ ms, m.id = m'.id ∧ page < m'.max.toNat ∧ Holds w m'.id page := by
        rintro ⟨m', -, hid, -, hh'⟩
        exact hh (hid ▸ hh')
      rw [Option.map_some, if_neg hnone, Option.map_some, if_neg hh]

/-- A page is held exactly if it is there. -/
theorem isSome_current : (P.current w id page).isSome = (P.page? id page).isSome := Option.isSome_map

/-- Where the window can be stored it is, and the pages are then what the memories hold. -/
theorem Sound.exists_flush (hP : P.Sound w ms) : ∃ Q, P.flush w ms = .ok Q ∧ Q.window = some w ∧
    ∀ m ∈ ms, ∀ page, Q.page? m.id page = P.current w m.id page := by
  obtain ⟨Q, hQ, hpages⟩ := Paging.exists_flush hP.stored
  exact ⟨Q, hQ, (window_of_flush hQ).trans hP.window,
    fun m hm page => (hpages m.id page).trans (page?_of_exists_flush hP hm page)⟩

/-- The window may hold a page of a memory, or be marked with one that the memory cannot have:
    where every page has its bytes in place, no memory holds anything else than before. -/
theorem Sound.setWindow (hms : Marked ms) (hP : P.Sound w ms)
    (hQ : ∀ m ∈ ms, ∀ page, Q.page? m.id page = P.current w m.id page) (hm : m ∈ ms)
    (hpage : page < 65536)
    (hmax : ∀ m' ∈ ms, m'.id = m.id → page < m'.max.toNat → (P.current w m.id page).isSome)
    (hdata : ∀ old, P.current w m.id page = some old → old = data) :
    (Q.setWindow ⟨data, m.id.mark, Int32.ofNat page⟩).Sound
        ⟨data, m.id.mark, Int32.ofNat page⟩ ms ∧
      ∀ m' ∈ ms, (Q.setWindow ⟨data, m.id.mark, Int32.ofNat page⟩).current
        ⟨data, m.id.mark, Int32.ofNat page⟩ m'.id = P.current w m'.id := by
  have hholds : ∀ m' ∈ ms, ∀ page',
      Holds ⟨data, m.id.mark, Int32.ofNat page⟩ m'.id page' ↔ m.id = m'.id ∧ page = page' :=
    fun m' hm' page' => holds_iff hpage
      ⟨fun h => hms.apart m hm m' hm' h, fun h => congrArg MemoryId.mark h⟩
  refine ⟨⟨rfl, fun m' hm' page' hlt hh => ?_, fun m' hm' page' hs => ?_⟩,
    fun m' hm' => funext fun page' => ?_⟩
  · obtain ⟨hid, rfl⟩ := (hholds m' hm' page').1 hh
    rw [page?_setWindow, hQ m' hm', ← hid]
    exact hmax m' hm' hid.symm hlt
  · rw [page?_setWindow, hQ m' hm', isSome_current] at hs
    exact hP.bounded m' hm' page' hs
  · rw [current, page?_setWindow, hQ m' hm']
    by_cases hh : Holds ⟨data, m.id.mark, Int32.ofNat page⟩ m'.id page'
    · obtain ⟨hid, rfl⟩ := (hholds m' hm' page').1 hh
      rw [← hid]
      cases hold : P.current w m.id page with
      | none => rfl
      | some old => rw [Option.map_some, if_pos (hid ▸ hh), hdata old hold]
    · simp only [if_neg hh, Option.map_id']

/-- **Loading a page that is there** brings its bytes into the window, and no memory holds anything
    else than before. -/
theorem exists_swapIn (hms : Marked ms) (hP : P.Sound w ms) (hm : m ∈ ms)
    (hdata : P.current w m.id page = some data) :
    ∃ Q, P.swapIn w ms m page = .ok Q ∧ Q.Sound ⟨data, m.id.mark, Int32.ofNat page⟩ ms ∧
      ∀ m' ∈ ms, Q.current ⟨data, m.id.mark, Int32.ofNat page⟩ m'.id = P.current w m'.id := by
  have hthere : (P.page? m.id page).isSome := by
    rw [← isSome_current (w := w), hdata]
    rfl
  have hlt : page < m.max.toNat := hP.bounded m hm page hthere
  have hpage : page < 65536 := Nat.lt_of_lt_of_le hlt (hms.fits m hm).2
  unfold swapIn
  by_cases hown : w.owner = m.id.mark ∧ w.page = Int32.ofNat page
  · -- The page is in the window already.
    have hint : (Int32.ofNat page).toInt = page := Int32.toInt_ofNat_of_lt (by omega)
    have hholds : Holds w m.id page := ⟨hown.1, by rw [hown.2, hint]⟩
    obtain ⟨old, hold⟩ := Option.isSome_iff_exists.1 hthere
    rw [current, hold, Option.map_some, if_pos hholds, Option.some.injEq] at hdata
    obtain ⟨wdata, owner, number⟩ := w
    obtain ⟨rfl, rfl⟩ := hown
    cases hdata
    rw [if_pos ⟨rfl, rfl⟩]
    exact ⟨P, rfl, hP, fun _ _ => rfl⟩
  · rw [if_neg hown]
    obtain ⟨P₁, h₁, -, hcurrent⟩ := hP.exists_flush
    have hload : P₁.load w m page =
        .ok (P₁.setWindow ⟨data, m.id.mark, Int32.ofNat page⟩) := by
      unfold load
      rw [if_pos hlt, hcurrent m hm, hdata]
    refine ⟨_, by rw [h₁]; exact hload, hP.setWindow hms hcurrent hm hpage
      (fun _ _ _ _ => Option.isSome_iff_exists.2 ⟨data, hdata⟩) fun old hold => ?_⟩
    exact Option.some.inj (hold.symm.trans hdata)

/-- **A page that the memory cannot have** is not loaded: the window keeps its bytes, whatever they
    are, and no memory holds anything else than before. -/
theorem exists_swapIn_beyond (hms : Marked ms) (hP : P.Sound w ms) (hm : m ∈ ms)
    (hsame : ∀ m' ∈ ms, m'.id = m.id → m'.max = m.max) (hmax : m.max.toNat ≤ page)
    (hpage : page < 65536) :
    ∃ Q, P.swapIn w ms m page = .ok Q ∧ Q.Sound ⟨w.data, m.id.mark, Int32.ofNat page⟩ ms ∧
      ∀ m' ∈ ms, Q.current ⟨w.data, m.id.mark, Int32.ofNat page⟩ m'.id = P.current w m'.id := by
  unfold swapIn
  by_cases hown : w.owner = m.id.mark ∧ w.page = Int32.ofNat page
  · obtain ⟨wdata, owner, number⟩ := w
    obtain ⟨rfl, rfl⟩ := hown
    rw [if_pos ⟨rfl, rfl⟩]
    exact ⟨P, rfl, hP, fun _ _ => rfl⟩
  · rw [if_neg hown]
    obtain ⟨P₁, h₁, -, hcurrent⟩ := hP.exists_flush
    have hload : P₁.load w m page =
        .ok (P₁.setWindow ⟨w.data, m.id.mark, Int32.ofNat page⟩) := by
      unfold load
      rw [if_neg (by omega)]
    have hnone : ∀ old, P.current w m.id page ≠ some old := fun old hold => by
      have hlt := hP.bounded m hm page (by rw [← isSome_current (w := w), hold]; rfl)
      omega
    refine ⟨_, by rw [h₁]; exact hload, hP.setWindow hms hcurrent hm hpage
      (fun m' hm' hid hlt => ?_) fun old hold => absurd hold (hnone old)⟩
    rw [hsame m' hm' hid] at hlt
    omega

/-- **A page that the memory can have but has not** is missed, and no memory holds anything else
    than before. -/
theorem exists_swapIn_missing (hP : P.Sound w ms) (hm : m ∈ ms) (hmax : page < m.max.toNat)
    (hpage : page < 65536) (hnone : P.page? m.id page = none) :
    ∃ Q, P.swapIn w ms m page = .error Q ∧ Q.Sound w ms ∧
      ∀ m' ∈ ms, Q.current w m'.id = P.current w m'.id := by
  unfold swapIn
  rw [if_neg]
  · obtain ⟨P₁, h₁, hw, hcurrent⟩ := hP.exists_flush
    have hthere : ∀ m' ∈ ms, ∀ page, (P₁.page? m'.id page).isSome = (P.page? m'.id page).isSome :=
      fun m' hm' page => by rw [hcurrent m' hm', isSome_current]
    have hload : P₁.load w m page = .error P₁ := by
      unfold load
      rw [if_pos hmax, hcurrent m hm, current, hnone]
      rfl
    refine ⟨P₁, by rw [h₁]; exact hload, ⟨hw, fun m' hm' page' hlt hh => ?_,
      fun m' hm' page' hs => ?_⟩, fun m' hm' => funext fun page' => ?_⟩
    · rw [hthere m' hm']
      exact hP.stored m' hm' page' hlt hh
    · exact hP.bounded m' hm' page' (hthere m' hm' page' ▸ hs)
    · rw [current, hcurrent m' hm', current, Option.map_map]
      congr 1
      funext data
      simp only [Function.comp]
      split <;> rfl
  · -- A page in the window of its owner is there.
    rintro ⟨howner, hnumber⟩
    have hint : (Int32.ofNat page).toInt = page := Int32.toInt_ofNat_of_lt (by omega)
    have hthere := hP.stored m hm page hmax ⟨howner, by rw [hnumber, hint]⟩
    rw [hnone] at hthere
    cases hthere

/-- The page of a byte that is there comes into the window, and no byte changes. -/
theorem exists_swapIn_of_byte {b : UInt8} (hms : Marked ms) (hP : P.Sound w ms) (hm : m ∈ ms)
    (hb : P.bytes w m.id address = some b) : ∃ Q data,
      P.swapIn w ms m (pageOf address) = .ok Q ∧
      Q.Sound ⟨data, m.id.mark, Int32.ofNat (pageOf address)⟩ ms ∧
      (∀ m' ∈ ms, Q.bytes ⟨data, m.id.mark, Int32.ofNat (pageOf address)⟩ m'.id =
        P.bytes w m'.id) ∧
      (data.byte (offsetOf address)).toUInt8 = b := by
  obtain ⟨data, hdata, hbyte⟩ := Option.map_eq_some_iff.1 hb
  obtain ⟨Q, hQ, hsound, hcurrent⟩ := exists_swapIn hms hP hm hdata
  refine ⟨Q, data, hQ, hsound, fun m' hm' => funext fun address' => ?_, hbyte⟩
  unfold bytes
  rw [hcurrent m' hm']

/-- While no memory owns the window, it can be stored. -/
theorem sound_of_empty_owner (hw : P.window = some w) (howner : w.owner = "")
    (hbounded : ∀ m ∈ ms, ∀ page, (P.page? m.id page).isSome → page < m.max.toNat) :
    P.Sound w ms := by
  refine ⟨hw, fun m _ page _ hholds => ?_, hbounded⟩
  have hmark : ':' ∈ m.id.mark.toList := by simp [MemoryId.mark]
  rw [← hholds.1, howner] at hmark
  cases hmark

/-! ## Writing to the window -/

/-- A byte written to the window is written to the page that it holds. -/
theorem sound_setWindowByte {offset : Nat} {b : Int8} (hP : P.Sound w ms) :
    (P.setWindowByte offset b).Sound { w with data := w.data.setByte offset b } ms := by
  rw [setWindowByte_of_window hP.window]
  exact ⟨rfl, hP.stored, hP.bounded⟩

theorem bytes_setWindowByte {b : Int8} (hP : P.Sound w ms)
    (hthere : (P.page? id (pageOf address)).isSome)
    (hholds : ∀ page, Holds w id' page ↔ id = id' ∧ pageOf address = page) :
    (P.setWindowByte (offsetOf address) b).bytes
        { w with data := w.data.setByte (offsetOf address) b } id' address' =
      ((P.bytes w).set id address b.toUInt8) id' address' := by
  rw [setWindowByte_of_window hP.window, Bytes.set_apply]
  unfold bytes current
  rw [page?_setWindow]
  have hsame : ∀ page, Holds { w with data := w.data.setByte (offsetOf address) b } id' page ↔
      id = id' ∧ pageOf address = page := hholds
  by_cases hpage : id = id' ∧ pageOf address = pageOf address'
  · obtain ⟨rfl, hpage⟩ := hpage
    obtain ⟨data, hdata⟩ := Option.isSome_iff_exists.1 hthere
    rw [← hpage, hdata, Option.map_some, Option.map_some, if_pos ((hsame _).2 ⟨rfl, rfl⟩),
      Option.map_some, Option.map_some, if_pos ((hholds _).2 ⟨rfl, rfl⟩)]
    by_cases ha : address' = address
    · subst ha
      rw [if_pos ⟨rfl, rfl⟩, Page.byte_setByte_self (offsetOf_lt address')]
    · rw [if_neg fun h => ha h.2, Page.byte_setByte_of_ne]
      exact fun hoffset => ha (eq_of_pageOf_offsetOf hpage hoffset).symm
  · have hne : ¬(id' = id ∧ address' = address) := by
      rintro ⟨rfl, rfl⟩
      exact hpage ⟨rfl, rfl⟩
    simp only [if_neg hne, if_neg (mt (hsame _).1 hpage), if_neg (mt (hholds _).1 hpage)]

end Paging

/-- Marks tell the memories of modules apart. -/
theorem Orderly.marked {parts : List Part} {ps : List Program} (h : Orderly parts)
    (hps : Part.Give parts ps) : Paging.Marked (allMemories (groupsOf parts)) :=
  ⟨fun _ hm _ hm' => hps.mark_inj hm hm', (h.pages hps).fits⟩

end WasmPack
