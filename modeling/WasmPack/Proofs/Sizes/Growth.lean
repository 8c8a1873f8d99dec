/-
  WasmPack.Proofs.Sizes.Growth

  Memories do not grow beyond what they may have, however a run ends.

  What appends pages does so without asking, so it begins only where there is
  room for as many pages as `#a` counts.  A page that is appended uses up some of
  the room, and the register counts down with it.  A request finds out with
  registers whether there is room, and what prepares a module makes room for each
  of its memories in turn.
-/
import WasmPack.Proofs.Sizes.Requests
import WasmPack.Proofs.Sizes.Sequences

namespace WasmPack

open Compile Machine

/-! ## Bounds -/

/-- A module among the parts defines the memory, with so many pages at most. -/
def Part.Defines (parts : List Part) (id : MemoryId) (max : UInt32) : Prop :=
  ∃ m spaces limits, .module id.ns m ∈ parts ∧ IndexSpaces.ofModule m = .ok spaces ∧
    spaces.memories[id.index]? = some (.defined limits) ∧ max = effectiveMax limits

/-- No memory of a module has more pages than it may have. -/
def Part.Bounds (parts : List Part) (z : Sizes) : Prop :=
  ∀ id max, Part.Defines parts id max → ∀ size, (z id.ns)[id.index]? = some size →
    size ≤ max.toNat

namespace Part

variable {parts : List Part} {z : Sizes} {id : MemoryId} {max max' : UInt32} {count : Nat}
  {ns : String}

/-- There is only one limit for a memory. -/
theorem Defines.unique (hapart : Apart parts) (h : Defines parts id max)
    (h' : Defines parts id max') : max = max' := by
  obtain ⟨m, spaces, limits, hm, hspaces, hi, rfl⟩ := h
  obtain ⟨m', spaces', limits', hm', hspaces', hi', rfl⟩ := h'
  cases hapart id.ns m m' hm hm'
  cases hspaces.symm.trans hspaces'
  cases hi.symm.trans hi'
  rfl

namespace Bounds

/-- A memory may get as many pages as there is room for. -/
theorem grown (h : Bounds parts z) (hapart : Apart parts) (hdef : Defines parts id max)
    (hroom : ((z id.ns)[id.index]?).getD 0 + count ≤ max.toNat) : Bounds parts (z.grown id count) := by
  intro id' max' hdef' size hsize
  by_cases hid : id' = id
  · subst hid
    cases hdef.unique hapart hdef'
    cases hold : (z id'.ns)[id'.index]? with
    | none =>
      rw [Sizes.grown, Function.update_self, List.getElem?_modify_eq, hold] at hsize
      cases hsize
    | some old =>
      rw [Sizes.getElem?_grown_self count hold, Option.some.injEq] at hsize
      rw [hold, Option.getD_some] at hroom
      omega
  · rw [Sizes.getElem?_grown_of_ne count hid] at hsize
    exact h id' max' hdef' size hsize

/-- Without memories nothing is too large. -/
theorem noMemories (h : Bounds parts z) (ns : String) :
    Bounds parts (Function.update z ns []) := by
  intro id max hdef size hsize
  by_cases hns : id.ns = ns
  · rw [hns, Function.update_self] at hsize
    cases hsize
  · rw [Function.update_of_ne hns] at hsize
    exact h id max hdef size hsize

/-- Nor is a memory without pages. -/
theorem addMemory (h : Bounds parts z) (ns : String) :
    Bounds parts (Function.update z ns (z ns ++ [0])) := by
  intro id max hdef size hsize
  by_cases hns : id.ns = ns
  · rw [hns, Function.update_self, List.getElem?_append] at hsize
    split at hsize
    · exact h id max hdef size (hns ▸ hsize)
    · obtain rfl := List.mem_singleton.1 (List.mem_of_getElem? hsize)
      exact Nat.zero_le _
  · rw [Function.update_of_ne hns] at hsize
    exact h id max hdef size hsize

end Bounds

end Part

namespace Machine

variable {code : Code} {tags : TagTable} {ns : String} {c : Command} {cs : List Command}
  {σ τ : State} {B L : Sizes → Prop} {I J Q : State → Prop} {id : MemoryId} {n k : Nat}
  {q : PagedMemory} {parts : List Part} {ps : List Program}

theorem Tries.mono {Q' : State → Prop} (h : Tries tags ns c σ Q) (hQ : ∀ τ, Q τ → Q' τ) :
    Tries tags ns c σ Q' := h.imp_left fun ⟨τ, hsteps, hτ⟩ => ⟨τ, hsteps, hQ τ hτ⟩

/-- A neutral command keeps the sizes of memories. -/
theorem keeps_neutral (hc : c.isNeutral = true) (hI : ∀ σ, I σ → Sized B σ) (σ : State)
    (hσ : I σ) : Keeps tags (Sized B) ns c σ :=
  Maintains.keeps (.step (Sized.ignoresWork B) hc) hI σ hσ

/-- A command that works on registers alone, by what it does to them. -/
theorem Triple.steps (hc : c.isNeutral = true) (hI : ∀ σ, I σ → Sized B σ)
    (h : ∀ σ, I σ → ∃ τ, Steps code.tags ns c σ [] τ ∧ J τ) :
    Triple code (Keeps code.tags (Sized B)) n ns [c] I J :=
  .moves (keeps_neutral hc hI) (.of_steps fun σ hσ => .inl (h σ hσ))

theorem Sized.mono (h : Sized L σ) (hLB : ∀ z, L z → B z) : Sized B σ := ⟨h.1, hLB _ h.2⟩

/-! ## Appending pages -/

/-- The sizes are as required with up to so many pages more for the memory. -/
def Room (L : Sizes → Prop) (id : MemoryId) (k : Nat) (z : Sizes) : Prop :=
  ∀ j ≤ k, L (z.grown id j)

theorem Room.now {z : Sizes} (h : Room L id k z) : L z := by
  have hnow := h 0 (Nat.zero_le k)
  rwa [Sizes.grown_zero] at hnow

/-- A page that is appended uses up room. -/
theorem Room.grown {z : Sizes} (h : Room L id (k + 1) z) : Room L id k (z.grown id 1) := by
  intro j hj
  rw [Sizes.grown_grown]
  exact h (1 + j) (by omega)

/-- There is room for as many pages as `#a` counts. -/
def Roomy (L : Sizes → Prop) (id : MemoryId) (k : Nat) (σ : State) : Prop :=
  Sized (Room L id k) σ ∧ σ.regs .a = some (Int32.ofNat k)

section Growing

variable (hLB : ∀ z, L z → B z) (hi : id.index < 2 ^ 31)
  (hfind : code.function ((Symbol.memory (UInt32.ofNat id.index) .growLoop).qualifiedName id.ns) =
    .ok ⟨id.ns, growLoopCommands (UInt32.ofNat id.index)⟩)

include hLB hi hfind

/-- The loop stays within the room that there is when it begins. -/
theorem triple_growLoop (hk : k + 1 < 2 ^ 31) :
    Triple code (Keeps code.tags (Sized B)) n id.ns
      (growLoopCommands (UInt32.ofNat id.index)) (Roomy L id (k + 1)) (Sized L) := by
  have hsized : ∀ {j} σ, Sized (Room L id j) σ → Sized B σ :=
    fun σ hσ => hσ.mono fun z hz => hLB z hz.now
  -- The induction is on the number of commands; what the loop calls is the loop, with fewer left.
  induction n generalizing k with
  | zero => exact fun _ _ => Along.zero
  | succ n ih =>
    refine .cons (J := fun σ => Sized (Room L id k) σ ∧ σ.regs .a = some (Int32.ofNat (k + 1)))
      (.tries (fun σ hσ => hsized σ hσ.1) (fun σ hσ => hsized σ hσ.1) fun σ hσ => ?_)
      (.cons (J := Roomy L id k) (.steps rfl (fun σ hσ => hsized σ hσ.1) fun σ hσ => ?_) ?_)
    · -- Between the page and the count the room is already used up.
      refine (tries_addPage hσ.1.1 hi).mono fun τ hτ => ⟨⟨hτ.1.1, ?_⟩, hτ.2 ▸ hσ.2⟩
      rw [hτ.1.2]
      exact hσ.1.2.grown
    · refine ⟨_, steps_addScore hσ.2, ⟨Tidy.ignoresWork.setReg _ hσ.1.1 rfl, hσ.1.2⟩, ?_⟩
      rw [State.regs_setReg, if_pos rfl, ofNat_succ_add_neg_one]
    · refine .callIf (Modifier.isCondition_ifIn _ _) (keeps_neutral rfl fun σ hσ => hsized σ hσ.1)
        (fun f hf => ?_) fun σ hσ _ => hσ.1.mono fun _ => Room.now
      cases hfind.symm.trans hf
      cases k with
      | zero =>
        rintro s ⟨σ, -, hσ, hallowed⟩
        cases (allows_atLeast_one hσ.2 (by omega)).symm.trans hallowed
      | succ k => exact (ih (by omega)).weaken (fun _ hσ => hσ.1) fun _ hσ => hσ

/-- So does what begins the loop if any page is wanted. -/
theorem triple_growUnchecked (hk : k < 2 ^ 31) :
    Triple code (Keeps code.tags (Sized B)) n id.ns
      (growUncheckedCommands (UInt32.ofNat id.index)) (Roomy L id k) (Sized L) := by
  cases n with
  | zero => exact fun _ _ => Along.zero
  | succ n =>
    refine .callIf (Modifier.isCondition_ifIn _ _)
      (keeps_neutral rfl fun σ hσ => hσ.1.mono fun z hz => hLB z hz.now) (fun f hf => ?_)
      fun σ hσ _ => hσ.1.mono fun _ => Room.now
    cases hfind.symm.trans hf
    cases k with
    | zero =>
      rintro s ⟨σ, -, hσ, hallowed⟩
      cases (allows_atLeast_one hσ.2 (by omega)).symm.trans hallowed
    | succ k =>
      exact (triple_growLoop hLB hi hfind hk).weaken (fun _ hσ => hσ.1) fun _ hσ => hσ

end Growing

/-! ## Requests -/

/-- The number of pages is loaded from where the memory is, and zero where there is none. -/
theorem measure_pages (hσ : Tidy σ) (hi : id.index < 2 ^ 31) :
    ((σ.lookup id.ns (pagesPath (UInt32.ofNat id.index))).map (·.measure)).getD 0 =
      Int32.ofNat (((σ.sizes id.ns)[id.index]?).getD 0) := by
  obtain ⟨P, hP⟩ := hσ.paging
  have hsize : (σ.sizes id.ns)[id.index]? = (P.pages? id).map List.length := by
    rw [hP.sizes_eq, List.getElem?_map]
    rfl
  rw [lookup_pages hP hi, hsize]
  cases P.pages? id with
  | none => rfl
  | some pages => exact congrArg Int32.ofNat Nbt.size_listOf

/-- The sizes are as required, the memory has so many pages, and the registers are as required. -/
structure Asked (B : Sizes → Prop) (id : MemoryId) (size : Nat)
    (p : (Register → Option Int32) → Prop) (σ : State) : Prop where
  sized : Sized B σ
  size : ((σ.sizes id.ns)[id.index]?).getD 0 = size
  regs : p σ.regs

theorem Asked.setReg {size : Nat} {p p' : (Register → Option Int32) → Prop} {r : Register}
    {m : Int32} (h : Asked B id size p σ) (hr : r.isWork = true) (hp : p' (σ.setReg r m).regs) :
    Asked B id size p' (σ.setReg r m) :=
  ⟨(Sized.ignoresWork B).setReg m h.sized hr, h.size, hp⟩

theorem Asked.ignoresStack {size : Nat} {p : (Register → Option Int32) → Prop} :
    Ignores .stack (Asked B id size p) := by
  have hwork : Writes.stack.Among .work := by
    refine ⟨fun _ hr => ?_, fun k hk => ?_⟩
    · cases hr
    · rw [of_decide_eq_true hk]
      decide
  have hsized : Ignores .stack (Sized fun z => B z ∧ ((z id.ns)[id.index]?).getD 0 = size) :=
    (Sized.ignoresWork _).mono hwork
  refine ⟨fun _ _ hr => ?_, fun hσ hkey hagree => ?_⟩
  · cases hr
  · obtain ⟨htidy, hB, hsize⟩ := hsized.agree ⟨hσ.sized.1, hσ.sized.2, hσ.size⟩ hkey hagree
    exact ⟨⟨htidy, hB⟩, hsize, hagree.1 ▸ hσ.regs⟩

section Requests

variable {size : Nat} {d : Int32}

/-- Where the answer is to be that there is room, there is room. -/
def Granted (size : Nat) (max : UInt32) (d : Int32) (regs : Register → Option Int32) : Prop :=
  regs .a = some d ∧ (regs .d = some 1 → size + d.toUInt32.toNat ≤ max.toNat)

/-- A request finds out whether there is room. -/
theorem triple_check (hfits : q.Fits) (hle : size ≤ q.max.toNat) :
    Triple code (Keeps code.tags (Sized B)) n q.id.ns
      (roomCommands (UInt32.ofNat q.id.index) q.max) (Asked B q.id size fun _ => True)
      fun σ => ∃ d, Asked B q.id size (Granted size q.max d) σ := by
  obtain ⟨hi, hmax⟩ := hfits
  have hsized : ∀ {p} σ, Asked B q.id size p σ → Sized B σ := fun σ hσ => hσ.sized
  apply Triple.cons (J := fun σ => ∃ d, Asked B q.id size (fun r => r .a = some d) σ)
  · refine .steps rfl hsized fun σ hσ => ⟨_, steps_load ⟨_, _, rfl⟩,
      ((σ.lookup q.id.ns (.operand (-1))).map (·.measure)).getD 0, hσ.setReg rfl ?_⟩
    rw [State.regs_setReg, if_pos rfl]
  refine .of_exists fun d => ?_
  apply Triple.cons (J := Asked B q.id size fun r => r .a = some d ∧ r .b = some (Int32.ofNat size))
  · refine .steps rfl hsized fun σ hσ => ⟨_, steps_load ⟨_, _, rfl⟩, hσ.setReg rfl ?_⟩
    rw [measure_pages hσ.sized.1 hi, hσ.size]
    exact ⟨hσ.regs, by simp⟩
  apply Triple.cons (J := Asked B q.id size fun r => r .a = some d ∧ r .c = some (Int32.ofNat size))
  · refine .steps rfl hsized fun σ hσ => ?_
    obtain ⟨ha, hb⟩ := hσ.regs
    exact ⟨_, steps_copy hb, hσ.setReg rfl ⟨ha, by simp⟩⟩
  apply Triple.cons (J := Asked B q.id size fun r =>
    r .a = some d ∧ r .c = some (Int32.ofNat size + d))
  · refine .steps rfl hsized fun σ hσ => ?_
    obtain ⟨ha, hc⟩ := hσ.regs
    exact ⟨_, steps_operation (by decide) hc ha, hσ.setReg rfl ⟨ha, by simp [applyOp]⟩⟩
  apply Triple.cons (J := Asked B q.id size fun r =>
    r .a = some d ∧ r .c = some (Int32.ofNat size + d) ∧ r .d = some 0)
  · refine .steps rfl hsized fun σ hσ => ?_
    obtain ⟨ha, hc⟩ := hσ.regs
    exact ⟨_, steps_setScore, hσ.setReg rfl ⟨ha, hc, by simp⟩⟩
  -- Where `#d` stays zero, nothing is granted.
  have hrefused : ∀ σ, (Asked B q.id size fun r =>
      r .a = some d ∧ r .c = some (Int32.ofNat size + d) ∧ r .d = some 0) σ →
      ∃ d, Asked B q.id size (Granted size q.max d) σ := fun σ hσ => by
    obtain ⟨ha, -, hzero⟩ := hσ.regs
    refine ⟨d, hσ.sized, hσ.size, ha, fun hone => ?_⟩
    cases hzero.symm.trans hone
  refine .moves (keeps_neutral rfl hsized) (.guarded (Modifier.isCondition_ifIn _ _)
    (.guarded (Modifier.isCondition_ifIn _ _) (.setScore fun σ hσ => ?_)
      fun σ hσ _ => hrefused σ hσ.1) fun σ hσ _ => hrefused σ hσ)
  obtain ⟨⟨hσ, hwanted⟩, hsum⟩ := hσ
  obtain ⟨ha, hc, -⟩ := hσ.regs
  rw [allows_ifIn ha, Option.some.injEq, contains_wanted hmax] at hwanted
  rw [allows_ifIn hc, Option.some.injEq, contains_sum hmax hle hwanted] at hsum
  exact ⟨d, hσ.setReg rfl ⟨ha, fun _ => hsum⟩⟩

end Requests

/-- A request appends pages only if there is room for them. -/
theorem triple_grow (hapart : Part.Apart parts) (hdef : Part.Defines parts q.id q.max)
    (hcode : code.HasMemory q) (hfits : q.Fits) :
    Triple code (Keeps code.tags (Sized (Part.Bounds parts))) n q.id.ns
      (growCommands (UInt32.ofNat q.id.index) q.max) (Sized (Part.Bounds parts))
      (Sized (Part.Bounds parts)) := by
  refine .of_forall fun σ hσ => ?_
  obtain ⟨size, hsize⟩ : ∃ size, ((σ.sizes q.id.ns)[q.id.index]?).getD 0 = size := ⟨_, rfl⟩
  have hmax := hfits.2
  have hle : size ≤ q.max.toNat := by
    cases hold : (σ.sizes q.id.ns)[q.id.index]? with
    | none =>
      rw [hold] at hsize
      exact hsize ▸ Nat.zero_le _
    | some old =>
      rw [hold] at hsize
      exact hsize ▸ hσ.2 q.id q.max hdef old hold
  refine .seq ((triple_check hfits hle).weaken (fun τ hτ => ?_) fun _ hτ => hτ)
    (.of_exists fun d => ?_)
  · rw [hτ]
    exact ⟨hσ, hsize, trivial⟩
  apply Triple.cons (J := Asked (Part.Bounds parts) q.id size (Granted size q.max d))
  · exact .moves (keeps_neutral rfl fun σ hσ => hσ.sized) (.within rfl rfl Asked.ignoresStack)
  apply Triple.cons (J := Asked (Part.Bounds parts) q.id size (Granted size q.max d))
  · exact .moves (keeps_neutral rfl fun σ hσ => hσ.sized) (.within rfl rfl Asked.ignoresStack)
  -- Nothing has been appended so far; the call behind `#d` is what makes the memory larger.
  cases n with
  | zero => exact fun _ _ => Along.zero
  | succ n =>
    refine .callIf (Modifier.isCondition_ifIn _ _) (keeps_neutral rfl fun σ hσ => hσ.sized)
      (fun f hf => ?_) fun σ hσ _ => hσ.sized
    cases hcode.growUnchecked.symm.trans hf
    refine .of_forall fun τ hτ => ?_
    obtain ⟨⟨hτ, hsizeτ, ha, hgranted⟩, hd⟩ := hτ
    have hroom : size + d.toUInt32.toNat ≤ q.max.toNat := by
      obtain ⟨x, hx, hone⟩ := Option.map_eq_some_iff.1 hd
      rw [contains_exact] at hone
      exact hgranted (hone ▸ hx)
    refine (triple_growUnchecked (L := Part.Bounds parts) (k := d.toUInt32.toNat) (fun _ h => h)
      hfits.1 hcode.growLoop (by omega)).weaken (fun υ hυ => ?_) fun _ hυ => hυ
    rw [hυ]
    refine ⟨⟨hτ.1, fun j hj => hτ.2.grown hapart hdef ?_⟩, ?_⟩
    · rw [hsizeτ]
      omega
    · rw [ha, ofNat_toUInt32 (by omega)]

/-! ## First pages -/

/-- No memory is too large, and this many memories of the module are there. -/
def Ready (parts : List Part) (ns : String) (count : Nat) (z : Sizes) : Prop :=
  Part.Bounds parts z ∧ (z ns).length = count

section Preparing

variable {entry : MemoryEntry} {entries : List MemoryEntry} {j : Nat} {spaces : IndexSpaces}

/-- A module among the parts defines the memories from an index on. -/
def Defined (parts : List Part) (ns : String) (start : Nat) (entries : List MemoryEntry) : Prop :=
  ∀ (k : Nat) (limits : Wasm.Limits), entries[k]? = some (.defined limits) →
    Part.Defines parts ⟨ns, start + k⟩ (effectiveMax limits)

/-- There is room for the first pages of a memory that has none. -/
theorem Ready.room {z : Sizes} {max : UInt32} (h : Ready parts ns (j + 1) z)
    (hapart : Part.Apart parts) (hdef : Part.Defines parts ⟨ns, j⟩ max)
    (hempty : (z ns)[j]? = some 0) (hk : k ≤ max.toNat) :
    Room (Ready parts ns (j + 1)) ⟨ns, j⟩ k z := by
  refine fun i hi => ⟨h.1.grown hapart hdef ?_, ?_⟩
  · rw [hempty, Option.getD_some, Nat.zero_add]
    exact Nat.le_trans hi hk
  · rw [Sizes.grown, Function.update_self, List.length_modify]
    exact h.2

/-- A memory gets its first pages when room is made for it. -/
theorem triple_initMemory (hapart : Part.Apart parts) (hbegins : code.Begins ns j [entry])
    (hdef : Defined parts ns j [entry]) (hj : j < 2 ^ 31) :
    Triple code (Keeps code.tags (Sized (Part.Bounds parts))) n ns
      (initMemory (UInt32.ofNat j) entry) (Sized (Ready parts ns j))
      (Sized (Ready parts ns (j + 1))) := by
  have hready : ∀ {i z}, Ready parts ns i z → Part.Bounds parts z := fun hz => hz.1
  have hsized : ∀ {i} σ, Sized (Ready parts ns i) σ → Sized (Part.Bounds parts) σ :=
    fun σ hσ => hσ.mono fun _ => hready
  apply Triple.cons (J := Sized fun z => Ready parts ns (j + 1) z ∧ (z ns)[j]? = some 0)
  · refine .tries hsized (fun σ hσ => hσ.mono fun _ hz => hready hz.1) fun σ hσ => ?_
    refine (tries_addMemory hσ.1).mono fun τ hτ => ⟨hτ.1, ?_⟩
    obtain ⟨-, hbounds, rfl⟩ := hσ
    rw [hτ.2]
    refine ⟨⟨hbounds.addMemory ns, ?_⟩, ?_⟩
    · rw [Function.update_self, List.length_append, List.length_singleton]
    · rw [Function.update_self, List.getElem?_concat_length]
  have hnothing : Triple code (Keeps code.tags (Sized (Part.Bounds parts))) n ns []
      (Sized fun z => Ready parts ns (j + 1) z ∧ (z ns)[j]? = some 0)
      (Sized (Ready parts ns (j + 1))) := .nil fun σ hσ => hσ.mono fun _ hz => hz.1
  -- An imported memory has its pages elsewhere.
  cases entry with
  | imported source => exact hnothing
  | defined limits =>
    obtain ⟨hok, hmemory⟩ := hbegins 0 limits rfl
    simp only
    split
    · rename_i hfirst
      rw [Bool.and_eq_true, decide_eq_true_eq] at hfirst
      have hcode : code.HasMemory ⟨⟨ns, j⟩, effectiveMax limits⟩ :=
        hmemory (isPaged_defined.1 hfirst.1)
      have hmin := hok.min
      have hmax := hok.max
      apply Triple.cons (J := Roomy (Ready parts ns (j + 1)) ⟨ns, j⟩ limits.min.toNat)
      · refine .steps rfl (fun σ hσ => hσ.mono fun _ hz => hready hz.1) fun σ hσ => ?_
        refine ⟨_, steps_setScore, ⟨Tidy.ignoresWork.setReg _ hσ.1 rfl, ?_⟩, ?_⟩
        · exact hσ.2.1.room hapart (hdef 0 limits rfl) hσ.2.2 hmin
        · rw [State.regs_setReg, if_pos rfl, toInt32_eq_ofNat]
      cases n with
      | zero => exact fun _ _ => Along.zero
      | succ n =>
        refine .call (keeps_neutral rfl fun σ hσ => hσ.1.mono fun _ hz => hready hz.now) fun f hf => ?_
        cases hcode.growUnchecked.symm.trans hf
        exact triple_growUnchecked (fun _ => hready) hj hcode.growLoop (by omega)
    · exact hnothing

/-- The memories of a module get their first pages one after the other. -/
theorem triple_initMemories (hapart : Part.Apart parts) (hbegins : code.Begins ns j entries)
    (hdef : Defined parts ns j entries) (hlen : j + entries.length ≤ 2 ^ 31) :
    Triple code (Keeps code.tags (Sized (Part.Bounds parts))) n ns
      ((entries.zipIdx j).flatMap fun (entry, i) => initMemory (UInt32.ofNat i) entry)
      (Sized (Ready parts ns j)) (Sized (Part.Bounds parts)) := by
  induction entries generalizing j with
  | nil => exact .nil fun σ hσ => hσ.mono fun _ hz => hz.1
  | cons entry entries ih =>
    rw [List.length_cons] at hlen
    have hsucc : ∀ k, j + (k + 1) = j + 1 + k := fun k => by omega
    refine .seq (triple_initMemory hapart (fun k limits hk => ?_) (fun k limits hk => ?_) (by omega))
      (ih (fun k limits hk => ?_) (fun k limits hk => ?_) (by omega))
    · cases k with
      | zero => exact hbegins 0 limits hk
      | succ k => cases hk
    · cases k with
      | zero => exact hdef 0 limits hk
      | succ k => cases hk
    · rw [← hsucc]
      exact hbegins (k + 1) limits hk
    · rw [← hsucc]
      exact hdef (k + 1) limits hk

/-- What the commands that prepare a module begin with makes no memory too large. -/
theorem triple_initHead (hapart : Part.Apart parts)
    (hbegins : code.Begins ns 0 spaces.memories.toList)
    (hdef : Defined parts ns 0 spaces.memories.toList) (hlen : spaces.memories.size ≤ 2 ^ 31) :
    Triple code (Keeps code.tags (Sized (Part.Bounds parts))) n ns (initHead spaces)
      (Sized (Part.Bounds parts)) (Sized (Part.Bounds parts)) := by
  have hsized : ∀ σ, Sized (Ready parts ns 0) σ → Sized (Part.Bounds parts) σ :=
    fun σ hσ => hσ.mono fun _ hz => hz.1
  refine .seq (J := Sized (Ready parts ns 0)) (.cons (J := Sized (Ready parts ns 0)) ?_ ?_)
    (triple_initMemories hapart hbegins hdef (by simpa using hlen))
  · refine .tries (fun _ hσ => hσ) hsized fun σ hσ => ?_
    refine (tries_noMemories hσ.1).mono fun τ hτ => ⟨hτ.1, ?_⟩
    rw [hτ.2]
    exact ⟨hσ.2.noMemories ns, by rw [Function.update_self, List.length_nil]⟩
  · exact .moves (keeps_neutral rfl hsized) (.within rfl rfl (Sized.ignoresWork _))

end Preparing

end Machine

end WasmPack
