/-
  WasmPack.Proofs.Paging.Shape

  States that no code can spoil.  In a tidy state the window and the lists of
  pages have the shape that the operations on memories expect, and the constants
  have their values, as far as any of them is there.  Every command of the
  library and of a compiled module keeps a state tidy, whether it succeeds or
  not; so a state is tidy wherever a run is broken off.
-/
import WasmPack.Proofs.Compile.Sequences
import WasmPack.Proofs.Execution.Library
import WasmPack.Proofs.Paging.Window

namespace WasmPack

open Machine Compile Paging

/-! ## Tidy states -/

/-- The state shows some memories, and the constants and the page of zeros are what they should be
    where they are there at all. -/
structure Tidy (σ : State) : Prop where
  paging : ∃ P : Paging, P.ShownBy σ
  consts : ∀ n, σ.regs (.const n) = none ∨ σ.regs (.const n) = some n
  zeroPage : σ.cells sharedId "zero_page" = none ∨ σ.cells sharedId "zero_page" = some zeroPage

namespace Tidy

variable {σ : State} {r : Register} {n : Int32} {id k : String} {v : Nbt} {P : Paging}

theorem empty : Tidy ⟨fun _ => none, fun _ _ => none⟩ where
  paging := ⟨⟨none, fun _ => []⟩, rfl, fun _ => .inr ⟨rfl, rfl⟩⟩
  consts _ := .inl rfl
  zeroPage := .inl rfl

/-- Only the page that the state shows has to be found again. -/
theorem setCell (h : Tidy σ) (hP : P.ShownBy (σ.setCell id k v)) (hk : k ≠ "zero_page") :
    Tidy (σ.setCell id k v) := by
  refine ⟨⟨P, hP⟩, h.consts, ?_⟩
  rw [State.cells_setCell, if_neg fun hik => hk hik.2.symm]
  exact h.zeroPage

theorem ignoresWork : IgnoresWork Tidy where
  setReg {σ r} n h hr := by
    obtain ⟨P, hP⟩ := h.paging
    refine ⟨⟨P, hP.setReg⟩, fun m => ?_, h.zeroPage⟩
    have hne : Register.const m ≠ r := by
      rintro rfl
      cases hr
    rw [State.regs_setReg, if_neg hne]
    exact h.consts m
  agree {σ τ id key} h hkey hagree := by
    obtain ⟨P, hP⟩ := h.paging
    have hother : ∀ i k, k ∉ workKeys → τ.cells i k = σ.cells i k := fun i k hk =>
      hagree.2 i k (.inr fun heq => hk (heq ▸ of_decide_eq_true hkey))
    refine ⟨⟨P, hP.congr (hother _ _ (by decide)) fun ns => hother _ _ (by decide)⟩, ?_, ?_⟩
    · rw [hagree.1]
      exact h.consts
    · rw [hother _ _ (by decide)]
      exact h.zeroPage

end Tidy

/-! ## Commands on pages -/

/-- Commands that keep states tidy: neutral ones, and those that handle pages.  All of them work on
    values that storages are there for. -/
inductive Harmless (ns : String) : Command → Prop where
  | neutral {c : Command} (h : c.isNeutral = true) (hhome : c.staysHome = true) : Harmless ns c
  | loadPage (i : UInt32) (page : Nat) : Harmless ns (.setFrom windowData (pagePath i page))
  | storePage (i : UInt32) (page : Nat) : Harmless ns (.setFrom (pagePath i page) windowData)
  | mark (mark : String) : Harmless ns (.setData windowId (.text mark))
  | savePage (r : Register) : Harmless ns (.save windowPage r)
  | saveByte (offset : Nat) (r : Register) :
    Harmless ns (.saveAs (Library.windowByte offset) .byte r)
  | addPage (i : UInt32) : Harmless ns (.appendFrom (pagesPath i) zeroPagePath)
  | addMemory : Harmless ns (.append memoriesPath .emptyList)
  | noMemories : Harmless ns (.setData memoriesPath .emptyList)
  | window : Harmless ns (.setData window emptyWindow)
  | zeroPage : Harmless ns (.setData zeroPagePath Compile.zeroPage)
  | const (n : Int32) : Harmless ns (.setScore (.const n) n)
  | guarded {c : Command} {g : Modifier} (hg : ∀ kind target, g ≠ .store kind target)
    (h : Harmless ns c) : Harmless ns (c.guarded g)

/-- A command that keeps states tidy mentions only values that storages are there for. -/
theorem Harmless.staysHome {ns : String} {c : Command} (h : Harmless ns c) : c.staysHome = true := by
  induction h with
  | neutral _ hhome => exact hhome
  | guarded hg _ ih =>
    rw [Command.staysHome_guarded (Modifier.IsCondition.paths_eq hg)]
    exact ih
  | _ => rfl

namespace Machine

variable {tags : TagTable} {ns : String} {P : Paging} {σ : State} {w : Window} {path source : Path}
  {value : Nbt} {i j : Int32} {mems : List (List Page)} {data : Page}

/-! ## Pages by any index -/

theorem exists_mem_of_position? {α : Type} {xs : List α} {n : Nat}
    (h : Nbt.position? i xs.length = some n) : ∃ x, xs[n]? = some x :=
  ⟨_, List.getElem?_eq_getElem (Nbt.lt_of_position? h)⟩

/-- Whatever two indices lead to is a page. -/
theorem lookup_memsNbt : (memsNbt mems).lookup [.index i, .index j] = none ∨
    ∃ data : Page, (memsNbt mems).lookup [.index i, .index j] = some (.stored data.toNbt) := by
  cases hi : Nbt.position? i mems.length with
  | none => exact .inl (Nbt.lookup_listOf_none hi)
  | some m =>
    obtain ⟨pages, hpages⟩ := exists_mem_of_position? hi
    rw [memsNbt, Nbt.lookup_listOf hi hpages]
    cases hj : Nbt.position? j pages.length with
    | none => exact .inl (Nbt.lookup_listOf_none hj)
    | some n =>
      obtain ⟨data, hdata⟩ := exists_mem_of_position? hj
      rw [Nbt.lookup_listOf hj hdata]
      exact .inr ⟨data, rfl⟩

/-- Writing a page leaves lists of as many pages. -/
theorem write_memsNbt : Nbt.write [.index i, .index j] data.toNbt (memsNbt mems) =
      (none, memsNbt mems) ∨
    ∃ b mems', Nbt.write [.index i, .index j] data.toNbt (memsNbt mems) =
      (some b, memsNbt mems') ∧ mems'.map List.length = mems.map List.length := by
  cases hi : Nbt.position? i mems.length with
  | none => exact .inl (Nbt.write_listOf_deep_none (by simp) hi)
  | some m =>
    obtain ⟨pages, hpages⟩ := exists_mem_of_position? hi
    cases hj : Nbt.position? j pages.length with
    | none =>
      have hinner : Nbt.write [.index j] data.toNbt (Nbt.listOf Page.toNbt pages) =
          (none, Nbt.listOf Page.toNbt pages) := Nbt.write_listOf_none hj
      have hdeep := Nbt.write_listOf_deep (by simp) hi hpages hinner
      obtain ⟨hlt, hget⟩ := List.getElem?_eq_some_iff.1 hpages
      rw [← hget, List.set_getElem_self] at hdeep
      exact .inl hdeep
    | some n =>
      obtain ⟨b, hinner⟩ := Nbt.write_listOf (f := Page.toNbt) (y := data) hj
      refine .inr ⟨b, _, Nbt.write_listOf_deep (by simp) hi hpages hinner, ?_⟩
      obtain ⟨hlt, rfl⟩ := List.getElem?_eq_some_iff.1 hpages
      have hmap : m < (mems.map List.length).length := by rwa [List.length_map]
      rw [List.map_set, List.length_set, ← List.getElem_map List.length (h := hmap),
        List.set_getElem_self]

/-- Appending a page leaves lists of pages. -/
theorem append_memsNbt : Nbt.append [.index i] data.toNbt (memsNbt mems) = (none, memsNbt mems) ∨
    ∃ mems', Nbt.append [.index i] data.toNbt (memsNbt mems) = (some true, memsNbt mems') := by
  cases hi : Nbt.position? i mems.length with
  | none => exact .inl (Nbt.append_listOf_none hi)
  | some m =>
    obtain ⟨pages, hpages⟩ := exists_mem_of_position? hi
    exact .inr ⟨_, Nbt.append_listOf_deep hi hpages (Nbt.append_listOf (f := Page.toNbt))⟩

/-! ## Harmless commands -/

variable {r : Register} {offset : Nat} {n : Int32} {c : Command}

/-- Writing a field of the window. -/
theorem leaves_setWindow (hσ : Tidy σ) {rest : List Segment} (hp : path.storage = .shared)
    (hs : path.segments = .key "mem" :: rest) (hrest : rest ≠ [])
    (hw : ∀ w : Window, Nbt.write rest value w.toNbt = (none, w.toNbt) ∨
      ∃ b w', Nbt.write rest value w.toNbt = (some b, Window.toNbt w')) :
    Leaves σ (perform ns (.setData path value)) Tidy := by
  obtain ⟨P, hP⟩ := hσ.paging
  have hid : path.storage.id ns = sharedId := by rw [hp]; rfl
  refine Leaves.setData hs hrest hσ fun v hv => ?_
  rw [hid, hP.window] at hv
  obtain ⟨w, hw', rfl⟩ := Option.map_eq_some_iff.1 hv
  obtain hwrite | ⟨b, w', hwrite⟩ := hw w
  · exact .inl hwrite
  · refine .inr ⟨b, _, hwrite, ?_⟩
    rw [hid]
    exact hσ.setCell hP.setWindow (by decide)

theorem maintains_loadPage (i : UInt32) (page : Nat) :
    Maintains Tidy (step tags ns (.setFrom windowData (pagePath i page))) := by
  refine .plain (.setFrom _ _) fun σ hσ => Leaves.require ⟨_, _, rfl⟩ hσ fun slot hslot => ?_
  obtain ⟨P, hP⟩ := hσ.paging
  have hlookup : (σ.cells (ownId ns) "mems").bind _ = _ :=
    hP.lookup_mems [.index i.toInt32, .index (Int32.ofNat page)] (by simp)
  obtain hnone | ⟨data, hdata⟩ :=
    lookup_memsNbt (i := i.toInt32) (j := Int32.ofNat page)
  · rw [hnone] at hlookup
    cases hslot.symm.trans hlookup
  · rw [hdata] at hlookup
    cases hslot.symm.trans hlookup
    exact leaves_setWindow hσ rfl rfl (by simp) fun w => .inr ⟨_, _, write_windowData⟩

theorem maintains_storePage (i : UInt32) (page : Nat) :
    Maintains Tidy (step tags ns (.setFrom (pagePath i page) windowData)) := by
  refine .plain (.setFrom _ _) fun σ hσ => Leaves.require ⟨_, _, rfl⟩ hσ fun slot hslot => ?_
  obtain ⟨P, hP⟩ := hσ.paging
  cases hw : P.window with
  | none =>
    have hnone : σ.lookup ns windowData = none := by
      show (σ.cells sharedId "mem").bind _ = _
      rw [hP.window, hw]
      rfl
    cases hslot.symm.trans hnone
  | some w =>
    cases hslot.symm.trans (hP.lookup_windowData hw)
    refine Leaves.setData rfl (by simp) hσ fun v hv => ?_
    obtain hc | ⟨hc, -⟩ := hP.mems ns
    · cases hv.symm.trans hc
      obtain hwrite | ⟨b, mems', hwrite, -⟩ := write_memsNbt (i := i.toInt32)
        (j := Int32.ofNat page)
      · exact .inl hwrite
      · exact .inr ⟨b, _, hwrite, hσ.setCell (hP.setMems) (by decide)⟩
    · cases hv.symm.trans hc

theorem maintains_addPage (i : UInt32) :
    Maintains Tidy (step tags ns (.appendFrom (pagesPath i) zeroPagePath)) := by
  refine .plain (.appendFrom _ _) fun σ hσ => Leaves.require ⟨_, _, rfl⟩ hσ fun slot hslot => ?_
  obtain ⟨P, hP⟩ := hσ.paging
  have hcell : (σ.cells sharedId "zero_page").bind (fun v => v.lookup []) = some slot := hslot
  obtain hz | hz := hσ.zeroPage
  · rw [hz] at hcell
    cases hcell
  · rw [hz] at hcell
    cases hcell
    refine Leaves.append rfl hσ fun v hv => ?_
    obtain hc | ⟨hc, -⟩ := hP.mems ns
    · cases hv.symm.trans hc
      obtain happend | ⟨mems', happend⟩ :
          Nbt.append [.index i.toInt32] zeroPage (memsNbt (P.mems ns)) =
            (none, memsNbt (P.mems ns)) ∨
          ∃ mems', Nbt.append [.index i.toInt32] zeroPage (memsNbt (P.mems ns)) =
            (some true, memsNbt mems') := @append_memsNbt _ _ (Vector.replicate pageSize 0)
      · exact .inl happend
      · exact .inr ⟨_, happend, hσ.setCell (hP.setMems) (by decide)⟩
    · cases hv.symm.trans hc

theorem maintains_addMemory : Maintains Tidy (step tags ns (.append memoriesPath .emptyList)) := by
  refine .plain (.append _ _) fun σ hσ => Leaves.append rfl hσ fun v hv => ?_
  obtain ⟨P, hP⟩ := hσ.paging
  obtain hc | ⟨hc, -⟩ := hP.mems ns
  · cases hv.symm.trans hc
    have happend : Nbt.append [] .emptyList (memsNbt (P.mems ns)) =
        (some true, memsNbt (P.mems ns ++ [[]])) := Nbt.append_listOf (x := [])
    exact .inr ⟨_, happend, hσ.setCell (hP.setMems) (by decide)⟩
  · cases hv.symm.trans hc

/-- A value that replaces what lies under a key. -/
theorem leaves_setTop {k : String} (hs : path.segments = [.key k])
    (hI : Tidy (σ.setCell (path.storage.id ns) k value)) :
    Leaves σ (perform ns (.setData path value)) Tidy := .does (performs_setData_top hs) hI

/-- The window before any page is loaded into it. -/
def Window.blank : WasmPack.Window := ⟨Vector.replicate pageSize 0, "", -1⟩

theorem Harmless.maintains (h : Harmless ns c) : Maintains Tidy (step tags ns c) := by
  induction h with
  | neutral hc _ => exact .step Tidy.ignoresWork hc
  | loadPage i page => exact maintains_loadPage i page
  | storePage i page => exact maintains_storePage i page
  | mark mark =>
    exact .plain (.setData _ _) fun σ hσ =>
      leaves_setWindow hσ rfl rfl (by simp) fun w => .inr ⟨_, _, write_windowId⟩
  | savePage r =>
    exact .saveAs fun n σ hσ =>
      leaves_setWindow hσ rfl rfl (by simp) fun w => .inr ⟨_, _, write_windowPage⟩
  | saveByte offset r =>
    refine .saveAs fun n σ hσ => leaves_setWindow
      hσ rfl rfl (by simp) fun w => ?_
    cases hp : Nbt.position? (Int32.ofNat offset) w.data.toArray.size with
    | none => exact .inl (write_windowByte_none hp)
    | some j =>
      obtain ⟨b, hb⟩ := write_windowByte (b := n.toInt8) hp
      exact .inr ⟨b, _, hb⟩
  | addPage i => exact maintains_addPage i
  | addMemory => exact maintains_addMemory
  -- The next three give the storage a shape from nothing, whatever was there.
  | noMemories =>
    refine .plain (.setData _ _) fun σ hσ => leaves_setTop rfl ?_
    obtain ⟨P, hP⟩ := hσ.paging
    have hnone : (P.setMems ns []).ShownBy (σ.setCell (ownId ns) "mems" .emptyList) := hP.setMems
    exact hσ.setCell hnone (by decide)
  | window =>
    refine .plain (.setData _ _) fun σ hσ => leaves_setTop rfl ?_
    obtain ⟨P, hP⟩ := hσ.paging
    exact hσ.setCell (hP.setWindow (w := Window.blank)) (by decide)
  | zeroPage =>
    refine .plain (.setData _ _) fun σ hσ => leaves_setTop rfl ?_
    obtain ⟨P, hP⟩ := hσ.paging
    refine ⟨⟨P, hP.setCell (by decide) (by decide)⟩, hσ.consts, .inr ?_⟩
    rw [State.cells_setCell, if_pos ⟨rfl, rfl⟩]
  | const n =>
    refine .plain (.setScore _ _) fun σ hσ => .does performs_setScore ?_
    obtain ⟨P, hP⟩ := hσ.paging
    refine ⟨⟨P, hP.setReg⟩, fun m => ?_, hσ.zeroPage⟩
    rw [State.regs_setReg]
    split
    · rename_i hm
      cases hm
      exact .inr rfl
    · exact hσ.consts m
  | guarded hg _ ih => exact .guarded hg ih

end Machine

end WasmPack
