/-
  WasmPack.Proofs.Execution.Preparation

  What the library leaves behind when it is prepared: the constants, the sentinel
  of branches, the lists that code works on, an empty window and a page of zeros.
-/
import WasmPack.Proofs.Execution.Library
import WasmPack.Proofs.Execution.Runs
import WasmPack.Proofs.State.Frame

namespace WasmPack.Machine

open Compile

variable {code : Code} {ns : String} {σ σ' : State} {rest : List Command} {outer : List Function}
  {e : Except Fault Unit} {r : Register} {value : Nbt} {id k : String} {n : Int32}
  {values : List Int32}

/-! ## Prepared states -/

/-- The lists that code works on. -/
def listKeys : List String := ["stack", "frames", "conditions"]

/-- The library has been prepared, and nothing has run since. -/
structure Prepared (σ : State) : Prop where
  consts : ∀ n ∈ Register.seeded, σ.regs (.const n) = some n
  brDepth : σ.regs .brDepth = some noBranch
  lists : ∀ k ∈ listKeys, σ.cells (Storage.shared.id "") k = some .emptyList
  scratch : σ.cells (Storage.shared.id "") "tmp" = some (.text "")
  window : σ.cells (Storage.shared.id "") "mem" = some emptyWindow
  zeroPage : σ.cells (Storage.shared.id "") "zero_page" = some zeroPage

/-! ## Preparing -/

/-- The constants are given their values, one after the other. -/
def State.setConsts (σ : State) (values : List Int32) : State :=
  values.foldl (fun σ n => σ.setReg (.const n) n) σ

theorem State.cells_setConsts (σ : State) (values : List Int32) :
    (σ.setConsts values).cells = σ.cells := by
  induction values generalizing σ with
  | nil => rfl
  | cons n values ih => exact ih _

theorem State.regs_setConsts_of_isWork (σ : State) (values : List Int32) (hr : r.isWork = true) :
    (σ.setConsts values).regs r = σ.regs r := by
  induction values generalizing σ with
  | nil => rfl
  | cons n values ih =>
    have hne : r ≠ .const n := by
      rintro rfl
      cases hr
    refine (ih _).trans ?_
    rw [regs_setReg, if_neg hne]

theorem State.regs_setConsts (σ : State) {values : List Int32} (h : n ∈ values) :
    (σ.setConsts values).regs (.const n) = some n := by
  -- A constant that is set again keeps its value.
  have hkeep : ∀ (values : List Int32) (σ : State), σ.regs (.const n) = some n →
      (σ.setConsts values).regs (.const n) = some n := by
    intro values
    induction values with
    | nil => exact fun σ hσ => hσ
    | cons m values ih =>
      intro σ hσ
      refine ih _ ?_
      rw [regs_setReg]
      split
      · rename_i heq
        cases heq
        rfl
      · exact hσ
  induction values generalizing σ with
  | nil => cases h
  | cons m values ih =>
    obtain rfl | h := List.mem_cons.1 h
    · exact hkeep values _ (by rw [regs_setReg, if_pos rfl])
    · exact ih _ h

theorem runs_setConsts (h : Runs code (⟨ns, rest⟩ :: outer) (σ.setConsts values) e σ') :
    Runs code (⟨ns, values.map (fun n => .setScore (.const n) n) ++ rest⟩ :: outer) σ e σ' := by
  induction values generalizing σ with
  | nil => exact h
  | cons n values ih => exact .plain steps_setScore (ih h)

theorem runs_setShared
    (h : Runs code (⟨ns, rest⟩ :: outer) (σ.setCell (Storage.shared.id "") k value) e σ') :
    Runs code (⟨ns, .setData (.shared k) value :: rest⟩ :: outer) σ e σ' :=
  .plain (.plain (.setData _ _) (performs_setData_top rfl)) h

/-- The keys of the shared storage that are given their first values. -/
def preparedKeys : List String := listKeys ++ ["tmp", "mem", "zero_page"]

/-- Preparing the library completes from every state, and leaves the rest of it alone. -/
theorem runs_load : ∃ σ', Runs code [⟨sharedNamespace, Library.loadCommands⟩] σ (.ok ()) σ' ∧
    Prepared σ' ∧ (∀ r, r.isWork = true → r ≠ .brDepth → σ'.regs r = σ.regs r) ∧
    ∀ id k, id ≠ Storage.shared.id "" ∨ k ∉ preparedKeys → σ'.cells id k = σ.cells id k := by
  have hobjective : Steps code.tags sharedNamespace .addObjective σ [] σ :=
    .plain .addObjective (Does.pure _)
  have hcommands : Library.loadCommands = .addObjective ::
      (Register.seeded.map (fun n => .setScore (.const n) n) ++
        [.setScore .brDepth noBranch, .setData (.shared "stack") .emptyList,
          .setData (.shared "frames") .emptyList, .setData (.shared "conditions") .emptyList,
          .setData (.shared "tmp") (.text ""), .setData (.shared "mem") emptyWindow,
          .setData (.shared "zero_page") zeroPage]) := rfl
  rw [hcommands]
  refine ⟨_, .plain hobjective (runs_setConsts (.plain steps_setScore
    (runs_setShared (runs_setShared (runs_setShared (runs_setShared (runs_setShared
      (runs_setShared .nil)))))))), ⟨fun n hn => ?_, ?_, fun k hk => ?_, ?_, ?_, ?_⟩,
    fun r hr hne => ?_, fun id k hik => ?_⟩
  · simp only [State.regs_setCell, State.regs_setReg, reduceCtorEq, if_false]
    exact State.regs_setConsts σ hn
  · simp only [State.regs_setCell, State.regs_setReg, if_true]
  · simp only [listKeys, List.mem_cons, List.not_mem_nil, or_false] at hk
    rcases hk with rfl | rfl | rfl <;> simp
  · simp
  · simp
  · simp
  · simp only [State.regs_setCell, State.regs_setReg, if_neg hne]
    exact State.regs_setConsts_of_isWork σ _ hr
  · have hother : ∀ key ∈ preparedKeys, ¬(id = Storage.shared.id "" ∧ k = key) := by
      rintro key hkey ⟨rfl, rfl⟩
      exact hik.elim (fun h => h rfl) fun h => h hkey
    simp only [preparedKeys, listKeys, List.cons_append, List.nil_append, List.forall_mem_cons,
      List.not_mem_nil, false_imp_iff, implies_true, and_true] at hother
    simp [hother, State.cells_setConsts]

end WasmPack.Machine
