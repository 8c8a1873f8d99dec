/-
  WasmPack.Proofs.Sizes.Requests

  Asking a memory for more pages, and how many it has.

  A request is answered with the number of pages before, and the memory has so
  many more pages of zeros, if there is room for them; otherwise it is answered
  with -1, and nothing changes.  A number of wanted pages in the upper half of
  the range counts as negative, so it is refused before it is added to anything.
-/
import WasmPack.Proofs.Access.Memory
import WasmPack.Proofs.Operators.Values
import WasmPack.Proofs.Paging.Growth

namespace WasmPack.Machine

open Compile Nbt

variable {code : Code} {tags : TagTable} {ns : String} {P : Paging} {m : MemoryId}
  {q : PagedMemory} {pages : List Page} {σ τ : State} {low : List Nbt} {d n : Int32}
  {x : Nbt} {b : Bool} {p : Nat} {max : UInt32}

/-! ## Room -/

/-- A number of pages is within the limits of registers. -/
theorem toInt_pages (hmax : max.toNat ≤ 65536) : max.toInt32.toInt = max.toNat := by
  rw [toInt_toInt32, if_pos (by omega)]

/-- The wanted number of pages is in range exactly if it is one that the memory may have. -/
theorem contains_wanted (hmax : max.toNat ≤ 65536) :
    (Range.between 0 max.toInt32).contains d = true ↔ d.toUInt32.toNat ≤ max.toNat := by
  have hd : d.toInt = _ := toInt_toInt32 d.toUInt32
  have hlt := d.toUInt32.toNat_lt
  rw [contains_between, toInt_pages hmax, Int32.toInt_zero]
  split at hd <;> omega

theorem ofNat_toUInt32 (h : d.toUInt32.toNat < 2 ^ 31) : Int32.ofNat d.toUInt32.toNat = d := by
  have hint : d.toInt = _ := toInt_toInt32 d.toUInt32
  rw [if_pos h] at hint
  rw [← Int32.ofInt_eq_ofNat, ← hint, Int32.ofInt_toInt]

/-- If it is, the sum with the number of pages does not wrap around. -/
theorem contains_sum (hmax : max.toNat ≤ 65536) (hp : p ≤ max.toNat)
    (hd : d.toUInt32.toNat ≤ max.toNat) :
    (Range.between 0 max.toInt32).contains (Int32.ofNat p + d) = true ↔
      p + d.toUInt32.toNat ≤ max.toNat := by
  have hsum : Int32.ofNat p + d = Int32.ofNat (p + d.toUInt32.toNat) := by
    rw [Int32.ofNat_add, ofNat_toUInt32 (by omega)]
  rw [hsum, contains_between, toInt_pages hmax, Int32.toInt_zero,
    Int32.toInt_ofNat_of_lt (by omega)]
  omega

/-! ## Commands -/

/-- The pages of a memory are found where they lie, if it is there. -/
theorem lookup_pages (h : P.ShownBy σ) (hi : m.index < 2 ^ 31) :
    σ.lookup m.ns (pagesPath (UInt32.ofNat m.index)) =
      (P.pages? m).map fun pages => .stored (listOf Page.toNbt pages) := by
  have hcell : σ.lookup m.ns (pagesPath (UInt32.ofNat m.index)) =
      (memsNbt (P.mems m.ns)).lookup [.index (Int32.ofNat m.index)] :=
    h.lookup_mems [.index (Int32.ofNat m.index)] (by simp)
  rw [hcell, memsNbt]
  cases hp : P.pages? m with
  | none => exact lookup_listOf_none (position?_ofNat_none hi (List.getElem?_eq_none_iff.1 hp))
  | some pages =>
    obtain ⟨hlt, -⟩ := List.getElem?_eq_some_iff.1 hp
    rw [lookup_listOf (position?_ofNat hi hlt) hp]
    rfl

/-- The number of pages of a memory is the measure of what lies there. -/
theorem performs_getPages (h : P.ShownBy σ) (hi : m.index < 2 ^ 31)
    (hp : P.pages? m = some pages) :
    Does σ (perform m.ns (.getData (pagesPath (UInt32.ofNat m.index))))
      (.done (Int32.ofNat pages.length)) σ := by
  have hmeasure : (Slot.stored (listOf Page.toNbt pages)).measure = Int32.ofNat pages.length := by
    show Int32.ofNat (pages.map Page.toNbt).toArray.size = _
    rw [size_listOf]
  have hlookup := lookup_pages h hi
  rw [hp] at hlookup
  rw [← hmeasure]
  exact performs_getData ⟨_, _, rfl⟩ hlookup

/-- The topmost operand is replaced. -/
theorem steps_setTop (h : σ.operands = some (entries (low ++ [x]))) (y : Nbt) :
    Steps tags ns (.setData top y) σ [] (σ.setOperands (low ++ [y])) := by
  obtain ⟨b, hwrite⟩ := write_listOf (f := id) (y := y) (position?_top low (x := x))
  rw [set_top] at hwrite
  exact .plain (.setData _ _)
    (performs_setData (k := "stack") rfl (List.cons_ne_nil _ _) h hwrite)

/-- The number of pages takes the place of the topmost operand. -/
theorem steps_saveSize (h : P.ShownBy σ) (hi : m.index < 2 ^ 31) (hp : P.pages? m = some pages)
    (hstack : σ.operands = some (entries (low ++ [x]))) :
    Steps tags m.ns (.execute [.store .result (.storage (.operand (-1)) .int)]
      (.getData (pagesPath (UInt32.ofNat m.index)))) σ []
      (σ.setOperands (low ++ [.int (Int32.ofNat pages.length)])) := by
  obtain ⟨b, hwrite⟩ := write_listOf (f := id) (y := .int (Int32.ofNat pages.length))
    (position?_top low (x := x))
  rw [set_top] at hwrite
  exact .stored (.getData _) (performs_getPages h hi hp)
    (stores_storage (k := "stack") rfl (List.cons_ne_nil _ _) hstack hwrite)

/-! ## Answers -/

/-- What finds out whether there is room for the wanted pages. -/
def roomCommands (index max : UInt32) : List Command :=
  [.load .a (.operand (-1)), .load .b (pagesPath index), .copy .c .b, .operation .c .add .a,
    .setScore .d 0, ((Command.setScore .d 1).ifIn .c (.between 0 max.toInt32)).ifIn .a
      (.between 0 max.toInt32)]

/-- What answers a request when that has been found out. -/
def answerCommands (index : UInt32) : List Command :=
  [(Command.setData (.operand (-1)) (.int (-1))).ifIn .d (.exact 0),
    (Command.call (.memory index .growUnchecked)).ifIn .d (.exact 1)]

/-- The registers that a request works with. -/
def requestRegisters : List Register := [.a, .b, .c, .d]

/-- A state behind a request, by the memories and the operands that there are now.  Nothing else has
    changed but registers that a request works with. -/
structure Answered (P : Paging) (xs : List Nbt) (σ τ : State) : Prop where
  shown : P.ShownBy τ
  keeps : KeepsBut requestRegisters (σ.setOperands xs) τ

/-- **The number of pages** is pushed onto the operand stack. -/
theorem computes_size (h : P.ShownBy σ) (hi : m.index < 2 ^ 31) (hp : P.pages? m = some pages)
    (hstack : σ.operands = some (entries low)) :
    Computes code m.ns (sizeCommands (UInt32.ofNat m.index)) σ
      (Answered P (low ++ [.int (Int32.ofNat pages.length)]) σ) := by
  have hpush : Steps code.tags m.ns (.append .stack (.int 0)) σ []
      (σ.setOperands (low ++ [.int 0])) := .plain (.append _ _) (performs_push hstack _)
  have h₁ : P.ShownBy (σ.setOperands (low ++ [.int 0])) := h.setCell (by decide) (by decide)
  apply Computes.plain hpush
  apply Computes.plain (steps_saveSize h₁ hi hp (State.operands_setOperands _ _))
  rw [State.setOperands_setOperands]
  exact .nil ⟨h.setCell (by decide) (by decide), .refl _ _⟩

theorem Touches.cell {rs : List Register} (h : Touches rs σ τ) (i k : String) :
    τ.cells i k = σ.cells i k := congrFun (congrFun h.cells i) k

theorem Touches.keepsBut {rs : List Register} (h : Touches rs σ τ) : KeepsBut rs σ τ :=
  ⟨h.regs, fun i k _ _ _ => h.cell i k⟩

/-- Whether there is room is found out with registers alone. -/
theorem computes_check (h : P.ShownBy σ) (hfits : q.Fits) (hp : P.pages? q.id = some pages)
    (hle : pages.length ≤ q.max.toNat) (hstack : σ.operands = some (entries (low ++ [.int d]))) :
    Computes code q.id.ns (roomCommands (UInt32.ofNat q.id.index) q.max) σ fun τ =>
      Touches requestRegisters σ τ ∧ τ.regs .a = some d ∧
        τ.regs .b = some (Int32.ofNat pages.length) ∧ τ.regs .d = some
          (if pages.length + d.toUInt32.toNat ≤ q.max.toNat then 1 else 0) := by
  obtain ⟨hi, hmax⟩ := hfits
  have hload : Steps code.tags q.id.ns (.load .b (pagesPath (UInt32.ofNat q.id.index)))
      (σ.setReg .a d) [] ((σ.setReg .a d).setReg .b (Int32.ofNat pages.length)) :=
    .stored (.getData _) (performs_getPages h.setReg hi hp) stores_score
  apply Computes.plain (steps_loadTop hstack)
  apply Computes.plain hload
  apply Computes.copy (n := Int32.ofNat pages.length) rfl
  apply Computes.op (by decide) (m := Int32.ofNat pages.length) (n := d) rfl rfl
  apply Computes.set
  -- The wanted number is looked at before the sum, which means nothing if that is out of range.
  apply Computes.ifIn (contains_wanted hmax) (r := .a) (n := d) rfl
  · intro hwanted
    apply Computes.ifIn (contains_sum hmax hle hwanted) (r := .c) rfl
    · intro hroom
      apply Computes.set
      apply Computes.nil
      simp [requestRegisters, hroom]
    · intro hfull
      apply Computes.nil
      simp [requestRegisters, hfull]
  · intro hwanted
    have hfull : ¬ pages.length + d.toUInt32.toNat ≤ q.max.toNat := by omega
    apply Computes.nil
    simp [requestRegisters, hfull]

/-- Where there is room, the wanted pages are appended. -/
theorem computes_granted (hcode : code.HasMemory q) (hg : Growable code P q.id σ)
    (hp : P.pages? q.id = some pages) (hd : d.toUInt32.toNat < 2 ^ 31) (ha : σ.regs .a = some d)
    (hroom : σ.regs .d = some 1) :
    Computes code q.id.ns (answerCommands (UInt32.ofNat q.id.index)) σ
      fun τ => (P.grow q.id d.toUInt32.toNat).ShownBy τ ∧ KeepsBut [.a] σ τ := by
  rw [← ofNat_toUInt32 hd] at ha
  obtain ⟨τ, hruns, hτ, hkeeps⟩ :=
    (endsWith_growUnchecked unpaged_anywhere trivial hg hp hd ha).ends
  refine ⟨τ, .blocked ?_ (.guarded ?_ (.call .call hcode.growUnchecked hruns .nil)), hτ, hkeeps⟩
  · rw [allows_ifIn_exact hroom]
    rfl
  · rw [allows_ifIn_exact hroom]
    rfl

/-- Where there is no room, the answer is -1. -/
theorem computes_refused (hfull : σ.regs .d = some 0)
    (hstack : σ.operands = some (entries (low ++ [x]))) :
    Computes code q.id.ns (answerCommands (UInt32.ofNat q.id.index)) σ
      (· = σ.setOperands (low ++ [.int (-1)])) := by
  refine ⟨_, .guarded ?_ (.plain (steps_setTop hstack _) (.blocked ?_ .nil)), rfl⟩
  · rw [allows_ifIn_exact hfull]
    rfl
  · have hd : (σ.setOperands (low ++ [.int (-1)])).regs .d = some 0 := hfull
    rw [allows_ifIn_exact hd]
    rfl

/-- **A request for pages** is answered with the number of pages before, and the wanted pages are
    appended, if there is room for them; otherwise it is answered with -1, and nothing changes. -/
theorem computes_grow (hcode : code.HasMemory q) (hfits : q.Fits) (h : P.ShownBy σ)
    (hp : P.pages? q.id = some pages) (hle : pages.length ≤ q.max.toNat)
    (hz : σ.cells sharedId "zero_page" = some zeroPage)
    (hstack : σ.operands = some (entries (low ++ [.int d]))) :
    Computes code q.id.ns (growCommands (UInt32.ofNat q.id.index) q.max) σ fun τ =>
      if pages.length + d.toUInt32.toNat ≤ q.max.toNat then
        Answered (P.grow q.id d.toUInt32.toNat) (low ++ [.int (Int32.ofNat pages.length)]) σ τ
      else Answered P (low ++ [.int (-1)]) σ τ := by
  apply (computes_check h hfits hp hle hstack).seq
  rintro τ ⟨hτ, ha, hb, hd⟩
  let υ := τ.setOperands (low ++ [.int (Int32.ofNat pages.length)])
  have hshown : ∀ xs, P.ShownBy (τ.setOperands xs) := fun xs =>
    (h.congr (hτ.cell _ _) fun _ => hτ.cell _ _).setCell (by decide) (by decide)
  apply Computes.plain (steps_saveTop (hτ.operands.trans hstack) hb)
  split at hd
  · rename_i hroom
    have hzero : υ.cells sharedId "zero_page" = some zeroPage := by
      simp [υ, State.setOperands, hτ.cell, hz]
    have hg : Growable code P q.id υ := ⟨hshown _, hfits.1, hzero, hcode.growLoop⟩
    have hmax := hfits.2
    apply (computes_granted hcode hg hp (by omega) ha hd).mono
    rintro ω ⟨hω, hkeeps⟩
    rw [if_pos hroom]
    exact ⟨hω, (hτ.setOperands _).keepsBut.trans (hkeeps.mono (by decide))⟩
  · rename_i hfull
    have hzero : υ.regs .d = some 0 := hd
    apply (computes_refused hzero (State.operands_setOperands _ _)).mono
    rintro ω rfl
    rw [if_neg hfull, State.setOperands_setOperands]
    exact ⟨hshown _, (hτ.setOperands _).keepsBut⟩

/-! ## Memories without pages -/

theorem computes_sizePageless (h : P.ShownBy σ) (hstack : σ.operands = some (entries low)) :
    Computes code ns [.append .stack (.int 0)] σ (Answered P (low ++ [.int 0]) σ) :=
  .plain (.plain (.append _ _) (performs_push hstack _))
    (.nil ⟨h.setCell (by decide) (by decide), .refl _ _⟩)

/-- A request for no pages is its own answer, and every other one is refused. -/
theorem computes_growPageless (h : P.ShownBy σ)
    (hstack : σ.operands = some (entries (low ++ [.int d]))) :
    Computes code ns [.load .a (.operand (-1)),
      (Command.setData (.operand (-1)) (.int (-1))).unlessIn .a (.exact 0)] σ
      (Answered P (low ++ [.int (if d = 0 then 0 else -1)]) σ) := by
  have hτ : Touches requestRegisters σ (σ.setReg .a d) := by simp [requestRegisters]
  apply Computes.plain (steps_loadTop hstack)
  apply Computes.unlessIn contains_exact (r := .a) (n := d) rfl
  · intro hd
    rw [if_neg hd]
    have hcell : (σ.setReg .a d).operands = some (entries (low ++ [.int d])) := hstack
    apply Computes.plain (steps_setTop hcell _)
    exact .nil ⟨h.setReg.setCell (by decide) (by decide), (hτ.setOperands _).keepsBut⟩
  · intro hd
    subst hd
    rw [if_pos rfl]
    apply Computes.nil
    have hself : (σ.setReg .a 0).setOperands (low ++ [.int 0]) = σ.setReg .a 0 :=
      State.setOperands_eq_self hstack
    have hkeeps := (hτ.setOperands (low ++ [.int 0])).keepsBut
    rw [hself] at hkeeps
    exact ⟨h.setReg, hkeeps⟩

end WasmPack.Machine
