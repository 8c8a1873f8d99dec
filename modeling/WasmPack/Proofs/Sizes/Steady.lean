/-
  WasmPack.Proofs.Sizes.Steady

  How many pages the memories of modules have, and which commands leave that
  alone.

  A list of pages gets longer where a page is appended to it, and the list of
  memories where room is made for one; a copy of a page takes the place of
  another.  So a command keeps all sizes unless it writes to one of these lists
  as a whole.

  Some commands keep a property only where they are reached: a page may be
  appended while there is room for it.  So a property is not kept by every
  command of the code, but it is kept along a run if every command that is
  reached keeps it, and then it holds where the run ends, at its end, at a fault,
  or at its limit.
-/
import WasmPack.Proofs.Execution.Rules
import WasmPack.Proofs.Paging.Growth
import WasmPack.Proofs.Paging.Shape

namespace WasmPack

namespace Machine

variable {code : Code} {tags : TagTable} {ns : String} {c : Command} {cs : List Command}
  {I J Q : State → Prop} {n limit gas : Nat} {fs : List Function} {s : Store} {α : Type}
  {work : Exec α}

/-- The property holds, and the command keeps it, whether or not it succeeds. -/
def Keeps (tags : TagTable) (I : State → Prop) (ns : String) (c : Command) (σ : State) : Prop :=
  I σ ∧ Leaves σ (step tags ns c) I

/-- What every command keeps that is reached, and that holds at an end, holds wherever the run
    ends. -/
theorem run_holds (hQ : ∀ σ, Q σ → I σ) (h : ∀ n, Along code (Keeps code.tags I) n fs Q s) :
    Holds I (run code limit gas fs s).store := by
  induction gas, fs, s using run.induct code limit with
  | case1 gas s =>
    rw [run]
    exact (Along.nil.1 (h 0)).mono hQ
  | case2 gas s ns outer ih =>
    rw [run]
    exact ih fun n => Along.leave.1 (h n)
  -- The limit is reached, and the store is what the steps so far have left.
  | case3 gas s ns c rest outer hle =>
    rw [run, if_pos hle]
    exact (Along.cons.1 (h 1)).1.mono fun _ hσ => hσ.1
  -- A command that fails is over too, so what it leaves keeps the invariant.
  | case4 gas s ns c rest outer hle e s₁ hstep =>
    obtain ⟨σ, hs, -, hleaves⟩ := (Along.cons.1 (h 1)).1
    obtain ⟨σ₁, hI, hs₁⟩ := hleaves s hs
    rw [after, hstep] at hs₁
    rw [run, if_neg hle, hstep]
    exact ⟨σ₁, hs₁, hI⟩
  | case5 gas s ns c rest outer hle names s₁ hstep e hf =>
    obtain ⟨σ, hs, -, hleaves⟩ := (Along.cons.1 (h 1)).1
    obtain ⟨σ₁, hI, hs₁⟩ := hleaves s hs
    rw [after, hstep] at hs₁
    rw [run, if_neg hle, hstep]
    simp only [hf]
    exact ⟨σ₁, hs₁, hI⟩
  | case6 gas s ns c rest outer hle names s₁ hstep entered hf ih =>
    rw [run, if_neg hle, hstep]
    simp only [hf]
    exact ih fun n => (Along.cons.1 (h (n + 1))).2 names s₁ entered hstep hf

/-! ## Commands that keep a property -/

theorem Maintains.keeps (h : Maintains I (Machine.step tags ns c)) (hJ : ∀ σ, J σ → I σ) (σ : State)
    (hσ : J σ) : Keeps tags I ns c σ := ⟨hJ σ hσ, fun s hs => h σ s (hJ σ hσ) hs⟩

/-- Two properties are maintained together. -/
theorem Maintains.and (hI : Maintains I work) (hJ : Maintains J work) :
    Maintains (fun σ => I σ ∧ J σ) work := by
  rintro σ s ⟨hσ, hσ'⟩ hs
  obtain ⟨τ, hτ, hs'⟩ := hI σ s hσ hs
  obtain ⟨υ, hυ, hs''⟩ := hJ σ s hσ' hs
  exact ⟨τ, ⟨hτ, hs'.unique hs'' ▸ hυ⟩, hs'⟩

/-- From the state the command comes to one with a property, or fails where it is. -/
def Tries (tags : TagTable) (ns : String) (c : Command) (σ : State) (Q : State → Prop) : Prop :=
  (∃ τ, Steps tags ns c σ [] τ ∧ Q τ) ∨ ∃ e, Fails σ (step tags ns c) e σ

/-- A command that is tried where the property holds, and behind which it holds. -/
theorem Triple.tries (hI : ∀ σ, I σ → Q σ) (hJ : ∀ σ, J σ → Q σ)
    (h : ∀ σ, I σ → Tries code.tags ns c σ J) :
    Triple code (Keeps code.tags Q) n ns [c] I J := by
  refine .moves (fun σ hσ => ⟨hI σ hσ, ?_⟩) (.of_steps fun σ hσ => ?_)
  · rcases h σ hσ with ⟨τ, hsteps, hτ⟩ | ⟨e, hfails⟩
    · exact .does hsteps (hJ τ hτ)
    · exact .fails hfails (hI σ hσ)
  · rcases h σ hσ with hsteps | ⟨e, hfails⟩
    · exact .inl hsteps
    · exact .inr ⟨e, σ, hfails⟩

end Machine

open Machine Compile

/-! ## Sizes -/

/-- The number of elements of a list. -/
def Nbt.count : Nbt → Nat
  | .list items => items.size
  | _ => 0

/-- The number of elements of every list in a list. -/
def Nbt.counts : Nbt → List Nat
  | .list items => items.toList.map Nbt.count
  | _ => []

theorem counts_memsNbt (mems : List (List Page)) :
    (memsNbt mems).counts = mems.map List.length := by
  show ((mems.map (Nbt.listOf Page.toNbt)).toArray.toList).map Nbt.count = _
  rw [List.map_map]
  apply List.map_congr_left
  intro pages _
  exact Nbt.size_listOf

/-- How many pages the memories of every module have. -/
abbrev Sizes := String → List Nat

namespace Sizes

variable {z : Sizes} {id id' : MemoryId} {size : Nat}

/-- More pages for a memory. -/
def grown (z : Sizes) (id : MemoryId) (count : Nat) : Sizes :=
  Function.update z id.ns ((z id.ns).modify id.index (· + count))

theorem grown_zero (z : Sizes) (id : MemoryId) : z.grown id 0 = z := by
  have hid : (z id.ns).modify id.index (· + 0) = z id.ns := List.modify_id _ _
  rw [grown, hid, Function.update_eq_self]

/-- Growing in two steps is growing at once. -/
theorem grown_grown (z : Sizes) (id : MemoryId) (m n : Nat) :
    (z.grown id m).grown id n = z.grown id (m + n) := by
  have hadd : (fun k : Nat => k + n) ∘ (fun k => k + m) = fun k => k + (m + n) :=
    funext fun k => Nat.add_assoc k m n
  unfold grown
  rw [Function.update_self, Function.update_idem, List.modify_modify_eq, hadd]

theorem getElem?_grown_self (count : Nat) (h : (z id.ns)[id.index]? = some size) :
    (z.grown id count id.ns)[id.index]? = some (size + count) := by
  rw [grown, Function.update_self, List.getElem?_modify_eq, h]
  rfl

theorem getElem?_grown_of_ne (count : Nat) (h : id' ≠ id) :
    (z.grown id count id'.ns)[id'.index]? = (z id'.ns)[id'.index]? := by
  obtain ⟨ns, i⟩ := id
  obtain ⟨ns', i'⟩ := id'
  unfold grown
  by_cases hns : ns' = ns
  · subst hns
    have hi : i ≠ i' := by
      rintro rfl
      exact h rfl
    rw [Function.update_self]
    exact List.getElem?_modify_ne _ _ hi
  · rw [Function.update_of_ne hns]

end Sizes

/-- How many pages the memories of a module have in the state. -/
def Machine.State.sizes (σ : State) : Sizes := fun ns =>
  ((σ.cells (ownId ns) "mems").map Nbt.counts).getD []

theorem Paging.ShownBy.sizes_eq {P : Paging} {σ : State} (h : P.ShownBy σ) (ns : String) :
    σ.sizes ns = (P.mems ns).map List.length := by
  unfold State.sizes
  rcases h.mems ns with hc | ⟨hc, hnil⟩
  · rw [hc, Option.map_some, Option.getD_some, counts_memsNbt]
  · rw [hc, hnil]
    rfl

/-- The sizes of the memories of the module whose list is replaced are those of the new one. -/
theorem Machine.State.sizes_setMems (σ : State) (ns : String) (mems : List (List Page)) :
    (σ.setCell (ownId ns) "mems" (memsNbt mems)).sizes =
      Function.update σ.sizes ns (mems.map List.length) := by
  funext ns'
  unfold sizes
  rw [State.cells_setCell]
  by_cases hns : ns' = ns
  · subst hns
    rw [if_pos ⟨rfl, rfl⟩, Function.update_self, Option.map_some, Option.getD_some, counts_memsNbt]
  · rw [if_neg fun h => hns (ownId_inj.1 h.1), Function.update_of_ne hns]

/-- Appending pages makes a memory longer. -/
theorem Paging.ShownBy.sizes_grow {P : Paging} {σ τ : State} {id : MemoryId} {pages : List Page}
    {count : Nat} (h : P.ShownBy σ) (hp : P.pages? id = some pages)
    (hτ : (P.grow id count).ShownBy τ) : τ.sizes = σ.sizes.grown id count := by
  have hmems : (P.grow id count).mems = Function.update P.mems id.ns
      ((P.mems id.ns).set id.index (pages ++ List.replicate count Page.zero)) := by
    rw [grow_of_pages? hp]
    rfl
  funext ns
  rw [hτ.sizes_eq, hmems, Sizes.grown, h.sizes_eq]
  by_cases hns : ns = id.ns
  · subst hns
    have hsize : ((P.mems id.ns).map List.length)[id.index]? = some pages.length := by
      rw [List.getElem?_map]
      exact congrArg (Option.map List.length) hp
    rw [Function.update_self, Function.update_self, List.map_set, List.modify_eq_set,
      hsize, List.length_append, List.length_replicate]
    rfl
  · rw [Function.update_of_ne hns, Function.update_of_ne hns, h.sizes_eq]

/-! ## Commands that keep sizes -/

/-- Everything but the lists of memories. -/
def Writes.besidesMems : Writes := ⟨fun _ => true, fun k => decide (k ≠ "mems")⟩

/-- The command writes to a list of memories, or to a list of pages, as a whole. -/
def Command.resizes : Command → Bool
  | .append p _ => !p.isWithin .besidesMems
  | .appendFrom p _ => !p.isWithin .besidesMems
  | .setData p _ => !p.isWithin .besidesMems
  | .execute _ run => run.resizes
  | _ => false

theorem Command.resizes_guarded (c : Command) (g : Modifier) :
    (c.guarded g).resizes = c.resizes := by
  cases c <;> rfl

theorem Writes.work_among_besidesMems : Writes.work.Among .besidesMems := by
  refine ⟨fun _ _ => rfl, fun k hk => decide_eq_true ?_⟩
  rintro rfl
  exact absurd hk (by decide)

theorem Command.resizes_of_isWithin {c : Command} (h : c.isWithin .besidesMems = true) :
    c.resizes = false := by
  induction c with
  | append p v => exact congrArg (!·) h
  | appendFrom p q => exact congrArg (!·) h
  | setData p v => exact congrArg (!·) h
  | execute ms run ih => exact ih (Bool.and_eq_true_iff.1 h).2
  | _ => rfl

namespace Machine

variable {tags : TagTable} {ns : String} {c : Command} {σ : State} {L : Sizes → Prop}
  {id : MemoryId}

/-- The state is tidy, and the sizes of memories are as required. -/
def Sized (L : Sizes → Prop) (σ : State) : Prop := Tidy σ ∧ L σ.sizes

theorem ignores_sizes (L : Sizes → Prop) : Ignores .besidesMems (fun σ => L σ.sizes) where
  setReg _ hσ _ := hσ
  agree {σ τ storage key} hσ hkey hagree := by
    have hsizes : τ.sizes = σ.sizes := by
      funext ns
      have hcell : τ.cells (ownId ns) "mems" = σ.cells (ownId ns) "mems" :=
        hagree.2 _ _ (.inr (of_decide_eq_true hkey).symm)
      rw [State.sizes, State.sizes, hcell]
    rwa [hsizes]

theorem Sized.ignoresWork (L : Sizes → Prop) : IgnoresWork (Sized L) :=
  Tidy.ignoresWork.and ((ignores_sizes L).mono Writes.work_among_besidesMems)

/-- What keeps states tidy and leaves the lists of memories alone keeps all sizes. -/
theorem Harmless.maintains_besides (h : Harmless ns c) (hc : c.isWithin .besidesMems = true) :
    Maintains (Sized L) (step tags ns c) :=
  .and (Harmless.maintains h) (.step (ignores_sizes L) hc)

/-- A page that is stored takes the place of another one. -/
theorem maintains_storePage_sized (i : UInt32) (page : Nat) :
    Maintains (Sized L) (step tags ns (.setFrom (pagePath i page) windowData)) := by
  refine .plain (.setFrom _ _) fun σ hσ => Leaves.require ⟨_, _, rfl⟩ hσ fun slot hslot => ?_
  obtain ⟨⟨P, hP⟩, -, -⟩ := hσ.1
  cases hw : P.window with
  | none =>
    -- Without a window there is nothing to store.
    have hnone : σ.lookup ns windowData = none := by
      show (σ.cells sharedId "mem").bind _ = _
      rw [hP.window, hw]
      rfl
    cases hslot.symm.trans hnone
  | some w =>
    cases hslot.symm.trans (hP.lookup_windowData hw)
    refine Leaves.setData rfl (by simp) hσ fun v hv => ?_
    rcases hP.mems ns with hc | ⟨hc, -⟩
    · cases hv.symm.trans hc
      rcases @write_memsNbt i.toInt32 (Int32.ofNat page) (P.mems ns) w.data with
        hwrite | ⟨b, mems', hwrite, hlength⟩
      · exact .inl hwrite
      · -- A write by an index never makes a list longer.
        refine .inr ⟨b, _, hwrite, hσ.1.setCell hP.setMems (by decide), ?_⟩
        have hself : Function.update σ.sizes ns (mems'.map List.length) = σ.sizes := by
          rw [hlength, ← hP.sizes_eq, Function.update_eq_self]
        have hsizes : (σ.setCell (ownId ns) "mems" (memsNbt mems')).sizes = σ.sizes :=
          (σ.sizes_setMems ns mems').trans hself
        exact hsizes ▸ hσ.2
    · cases hv.symm.trans hc

/-- **A command that keeps states tidy keeps all sizes**, unless it writes to a list of memories or
    of pages as a whole. -/
theorem Harmless.maintains_sized (h : Harmless ns c) (hc : c.resizes = false) :
    Maintains (Sized L) (step tags ns c) := by
  induction h with
  | neutral hneutral => exact .step (Sized.ignoresWork L) hneutral
  | storePage i page => exact maintains_storePage_sized i page
  | addPage i => cases hc
  | addMemory => cases hc
  | noMemories => cases hc
  | guarded hg _ ih =>
    rw [Command.resizes_guarded] at hc
    exact .guarded hg (ih hc)
  | loadPage i page => exact Harmless.maintains_besides (.loadPage i page) rfl
  | mark mark => exact Harmless.maintains_besides (.mark mark) rfl
  | savePage r => exact Harmless.maintains_besides (.savePage r) rfl
  | saveByte offset r => exact Harmless.maintains_besides (.saveByte offset r) rfl
  | window => exact Harmless.maintains_besides .window rfl
  | zeroPage => exact Harmless.maintains_besides .zeroPage rfl
  | const n => exact Harmless.maintains_besides (.const n) rfl

/-! ## Commands that change sizes -/

/-- Appending a page makes the memory longer by one, or fails. -/
theorem tries_addPage (hσ : Tidy σ) (hi : id.index < 2 ^ 31) :
    Tries tags id.ns (.appendFrom (pagesPath (UInt32.ofNat id.index)) zeroPagePath) σ
      fun τ => Sized (· = σ.sizes.grown id 1) τ ∧ τ.regs = σ.regs := by
  obtain ⟨⟨P, hP⟩, hconsts, hzero⟩ := hσ
  rcases hzero with hz | hz
  · -- Before the library has been prepared there is no page to append.
    have hlookup : σ.lookup id.ns zeroPagePath = none := by
      show (σ.cells sharedId "zero_page").bind _ = _
      rw [hz]
      rfl
    exact .inr ⟨_, Faults.plain (.appendFrom _ _) (Fails.require ⟨_, _, rfl⟩ hlookup).bind_left⟩
  cases hp : P.pages? id with
  | none =>
    -- The memory is not there, so the path leads nowhere.
    have hlookup : σ.lookup id.ns zeroPagePath = some (.stored zeroPage) := by
      show (σ.cells sharedId "zero_page").bind _ = _
      rw [hz]
      rfl
    have hindex : Nbt.position? (Int32.ofNat id.index) (P.mems id.ns).length = none :=
      Nbt.position?_ofNat_none hi (List.getElem?_eq_none_iff.1 hp)
    refine .inr ⟨_, Faults.plain (.appendFrom _ _) (Fails.bind (Does.require ⟨_, _, rfl⟩ hlookup)
      (Fails.append rfl fun v hv => ?_))⟩
    rcases hP.mems id.ns with hc | ⟨hc, -⟩
    · cases hv.symm.trans hc
      exact Nbt.append_listOf_none hindex
    · cases hv.symm.trans hc
  | some pages =>
    obtain ⟨v, hsteps, hτ⟩ : ∃ v, Steps tags id.ns
        (.appendFrom (pagesPath (UInt32.ofNat id.index)) zeroPagePath) σ []
          (σ.setCell (ownId id.ns) "mems" v) ∧
        (P.grow id 1).ShownBy (σ.setCell (ownId id.ns) "mems" v) := steps_addPage hP hi hp hz
    refine .inl ⟨_, hsteps, ⟨⟨⟨_, hτ⟩, hconsts, .inr ?_⟩, hP.sizes_grow hp hτ⟩, rfl⟩
    rw [State.cells_setCell, if_neg fun hk => absurd hk.2 (by decide), hz]

/-- Making room for a memory adds one without pages, or fails. -/
theorem tries_addMemory (hσ : Tidy σ) :
    Tries tags ns (.append memoriesPath .emptyList) σ
      (Sized (· = Function.update σ.sizes ns (σ.sizes ns ++ [0]))) := by
  obtain ⟨P, hP⟩ := hσ.paging
  rcases hP.mems ns with hc | ⟨hc, -⟩
  · have happend : Nbt.append [] .emptyList (memsNbt (P.mems ns)) =
        (some true, memsNbt (P.mems ns ++ [[]])) := Nbt.append_listOf (x := [])
    have hsizes := σ.sizes_setMems ns (P.mems ns ++ [[]])
    rw [List.map_append, ← hP.sizes_eq] at hsizes
    exact .inl ⟨_, .plain (.append _ _) (performs_append rfl hc happend),
      hσ.setCell hP.setMems (by decide), hsizes⟩
  · exact .inr ⟨_, Faults.plain (.append _ _) (Fails.append rfl fun v hv => by
      cases hv.symm.trans hc)⟩

/-- A module begins without memories. -/
theorem tries_noMemories (hσ : Tidy σ) :
    Tries tags ns (.setData memoriesPath .emptyList) σ
      (Sized (· = Function.update σ.sizes ns [])) := by
  obtain ⟨P, hP⟩ := hσ.paging
  have hnone : (P.setMems ns []).ShownBy (σ.setCell (ownId ns) "mems" .emptyList) := hP.setMems
  exact .inl ⟨_, .plain (.setData _ _) (performs_setData_top rfl), hσ.setCell hnone (by decide),
    σ.sizes_setMems ns []⟩

end Machine

end WasmPack
