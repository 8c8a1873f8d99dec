/-
  WasmPack.Proofs.Sizes.Parts

  How the memories of loaded modules grow.

  Every request for pages completes, and is answered with the number of pages
  before or with -1.  Where modules neither export nor import a function under a
  name that looks internal, no memory ever has more pages than it may have.
-/
import WasmPack.Proofs.Execution.Booted
import WasmPack.Proofs.Sizes.Requests
import WasmPack.Proofs.Sizes.Served

namespace WasmPack.Machine

open Compile Wasm
open Nbt (entries)

variable {code : Code} {parts : List Part} {ps : List Program} {ns : String} {m : Module}
  {p : Program} {spaces : IndexSpaces} {i : Nat} {limits : Limits} {cs : List Command}
  {s : Store} {σ : State} {P : Paging} {pages : List Page} {low : List Nbt} {d : Int32}
  {Q : State → Prop}

/-- What a name means runs, and ends so. -/
def CallRuns (code : Code) (name : String) (σ : State) (r : Except Fault Unit) (τ : State) : Prop :=
  ∃ f, code.function name = .ok f ∧ Runs code [f] σ r τ

namespace CallRuns

variable {name : String} {r : Except Fault Unit} {τ : State} {q : Symbol}

/-- What only calls something else runs as that does. -/
theorem forward (hf : code.function name = .ok ⟨ns, [.call q]⟩)
    (h : CallRuns code (q.qualifiedName ns) σ r τ) : CallRuns code name σ r τ := by
  obtain ⟨g, hg, hruns⟩ := h
  cases r with
  | ok _ => exact ⟨_, hf, .call .call hg hruns .nil⟩
  | error e => exact ⟨_, hf, .call_fault .call hg hruns⟩

/-- A call completes if what is called does. -/
theorem completes (h : CallRuns code (q.qualifiedName ns) σ (.ok ()) τ) (hQ : Q τ)
    (hs : s.Models σ) : Completes code ns [.call q] s Q := by
  obtain ⟨f, hf, hruns⟩ := h
  have hcall : Runs code [⟨ns, [.call q]⟩] σ (.ok ()) τ := .call .call hf hruns .nil
  exact hcall.completes hs hQ

end CallRuns

/-- What a name means computes what its commands do. -/
theorem Computes.callRuns {name : String} (h : Computes code ns cs σ Q)
    (hf : code.function name = .ok ⟨ns, cs⟩) : ∃ τ, CallRuns code name σ (.ok ()) τ ∧ Q τ := by
  obtain ⟨τ, hruns, hQ⟩ := h
  exact ⟨τ, ⟨_, hf, hruns⟩, hQ⟩

section Requests

variable (hparts : Orderly parts) (hps : Part.Give parts ps) (hm : .module ns m ∈ parts)
  (c : Compiled ns m p) (hi : c.spaces.memories[i]? = some (.defined limits))

include hparts hps hm hi

/-- A memory that can never have a page answers for itself. -/
theorem pageless_function (hmax : effectiveMax limits = 0) {op : MemoryOp}
    (hop : ⟨.memory (UInt32.ofNat i) op, cs⟩ ∈ pagelessSequences (UInt32.ofNat i)) :
    (ps.foldl Code.addProgram {}).function ((Symbol.memory (UInt32.ofNat i) op).qualifiedName ns) =
      .ok ⟨ns, cs⟩ := by
  have hpageless : memorySequences ns (UInt32.ofNat i) (.defined limits) =
      pagelessSequences (UInt32.ofNat i) := if_pos hmax
  exact hparts.memory_function hps hm c hi (hpageless ▸ hop)

/-- The number of pages of a memory is told. -/
theorem callRuns_size (h : P.ShownBy σ) (hp : P.pages? ⟨ns, i⟩ = some pages)
    (hle : pages.length ≤ (effectiveMax limits).toNat) (hstack : σ.operands = some (entries low)) :
    ∃ τ, CallRuns (ps.foldl Code.addProgram {})
        ((Symbol.memory (UInt32.ofNat i) .size).qualifiedName ns) σ (.ok ()) τ ∧
      Answered P (low ++ [.int (Int32.ofNat pages.length)]) σ τ := by
  by_cases hmax : effectiveMax limits = 0
  · have hlength : pages.length = 0 := by simpa [hmax] using hle
    rw [hlength]
    exact (computes_sizePageless h hstack).callRuns
      (pageless_function hparts hps hm c hi hmax (by simp [pagelessSequences]))
  · have hx : ⟨⟨ns, i⟩, effectiveMax limits⟩ ∈ pagedMemories ns c.spaces.memories :=
      mem_pagedMemories.2 ⟨i, limits, hi, hmax, rfl⟩
    have hcode := hparts.hasMemory hps hm c hx
    exact (computes_size h (hparts.fits hm c hx).1 hp hstack).callRuns
      (hcode.operation (by simp [pagedSequences]))

/-- A request for pages is answered, and the pages are there if it is granted. -/
theorem callRuns_grow (h : P.ShownBy σ) (hp : P.pages? ⟨ns, i⟩ = some pages)
    (hle : pages.length ≤ (effectiveMax limits).toNat)
    (hz : σ.cells sharedId "zero_page" = some zeroPage)
    (hstack : σ.operands = some (entries (low ++ [.int d]))) :
    ∃ τ, CallRuns (ps.foldl Code.addProgram {})
        ((Symbol.memory (UInt32.ofNat i) .grow).qualifiedName ns) σ (.ok ()) τ ∧
      if pages.length + d.toUInt32.toNat ≤ (effectiveMax limits).toNat then
        Answered (P.grow ⟨ns, i⟩ d.toUInt32.toNat)
          (low ++ [.int (Int32.ofNat pages.length)]) σ τ
      else Answered P (low ++ [.int (-1)]) σ τ := by
  by_cases hmax : effectiveMax limits = 0
  · have hlength : pages.length = 0 := by simpa [hmax] using hle
    obtain ⟨τ, hcall, hτ⟩ : ∃ τ, CallRuns (ps.foldl Code.addProgram {})
        ((Symbol.memory (UInt32.ofNat i) .grow).qualifiedName ns) σ (.ok ()) τ ∧ _ :=
      (computes_growPageless h hstack).callRuns
        (pageless_function hparts hps hm c hi hmax (by simp [pagelessSequences]))
    refine ⟨τ, hcall, ?_⟩
    rw [hlength, hmax]
    -- Only a request for no pages is granted, and it changes nothing.
    have hzero : 0 + d.toUInt32.toNat ≤ (0 : UInt32).toNat ↔ d = 0 := by
      constructor
      · intro hle
        have hnat : d.toUInt32.toNat = 0 := by simpa using hle
        rw [← ofNat_toUInt32 (d := d) (by omega), hnat]
        rfl
      · rintro rfl
        exact Nat.le_refl 0
    by_cases hd : d = 0
    · rw [if_pos (hzero.2 hd)]
      subst hd
      rw [if_pos rfl] at hτ
      exact (Paging.grow_zero hp).symm ▸ hτ
    · rw [if_neg fun hroom => hd (hzero.1 hroom)]
      rwa [if_neg hd] at hτ
  · have hx : ⟨⟨ns, i⟩, effectiveMax limits⟩ ∈ pagedMemories ns c.spaces.memories :=
      mem_pagedMemories.2 ⟨i, limits, hi, hmax, rfl⟩
    have hcode := hparts.hasMemory hps hm c hx
    exact (computes_grow hcode (hparts.fits hm c hx) h hp hle hz hstack).callRuns
      (hcode.operation (by simp [pagedSequences]))

end Requests

/-- **Memories grow within their bounds.**  For every memory that a loaded module defines, no machine
    that a host brings about has more pages than it may have.  In every state with no more pages in
    which the page of zeros is there, as it is on every booted machine, a question for their number
    is answered with it, and a request for pages either appends that many pages of zeros and is
    answered with the number of pages before, or is answered with -1 and changes nothing; it is
    granted exactly if there is room.  Nothing else changes but registers that requests work with. -/
theorem memories_grow_within_bounds (hparts : Orderly parts)
    (himports : ∀ ns m, .module ns m ∈ parts → NoInternalImports m) (hps : Part.Give parts ps)
    (hm : .module ns m ∈ parts) (hspaces : IndexSpaces.ofModule m = .ok spaces)
    (hi : spaces.memories[i]? = some (.defined limits)) :
    (∀ machine, Served parts machine → ∃ σ, machine.store.Models σ ∧ (∃ P : Paging, P.ShownBy σ) ∧
      ∀ (P : Paging) pages, P.ShownBy σ → P.pages? ⟨ns, i⟩ = some pages →
        pages.length ≤ (effectiveMax limits).toNat) ∧
    (∀ machine, Booted parts machine → ∃ σ, machine.store.Models σ ∧ HasZeroPage σ) ∧
    ∀ (s : Store) (σ : State) (P : Paging) (pages : List Page) (low : List Nbt), s.Models σ →
      P.ShownBy σ → P.pages? ⟨ns, i⟩ = some pages →
      pages.length ≤ (effectiveMax limits).toNat → HasZeroPage σ →
      (σ.operands = some (entries low) →
        Completes (ps.foldl Code.addProgram {}) ns [.call (.memory (UInt32.ofNat i) .size)] s
          (Answered P (low ++ [.int (Int32.ofNat pages.length)]) σ)) ∧
      ∀ d : Int32, σ.operands = some (entries (low ++ [.int d])) →
        Completes (ps.foldl Code.addProgram {}) ns [.call (.memory (UInt32.ofNat i) .grow)] s
          fun τ =>
            if pages.length + d.toUInt32.toNat ≤ (effectiveMax limits).toNat then
              Answered (P.grow ⟨ns, i⟩ d.toUInt32.toNat)
                (low ++ [.int (Int32.ofNat pages.length)]) σ τ
            else Answered P (low ++ [.int (-1)]) σ τ := by
  obtain ⟨p, -, hp⟩ := hps.exists_program hm
  obtain ⟨c⟩ := exists_compiled hp
  obtain rfl : c.spaces = spaces := Except.ok.inj (c.spacesOk.symm.trans hspaces)
  refine ⟨?_, fun machine hbooted => hbooted.hasZeroPage, ?_⟩
  -- Bounds are kept by what a host does; the answers follow from the bounds alone.
  · intro machine hserved
    obtain ⟨-, σ, hs, htidy, hbounds⟩ := hserved.withinBounds hparts himports
    refine ⟨σ, hs, htidy.paging, fun P pages hP hpages => ?_⟩
    apply hbounds ⟨ns, i⟩ _ ⟨m, c.spaces, limits, hm, hspaces, hi, rfl⟩
    have hlist : (P.mems ns)[i]? = some pages := hpages
    rw [hP.sizes_eq, List.getElem?_map, hlist]
    rfl
  · intro s σ P pages low hs h hpages hle hz
    refine ⟨fun hstack => ?_, fun d hstack => ?_⟩
    · obtain ⟨τ, hcall, hτ⟩ := callRuns_size hparts hps hm c hi h hpages hle hstack
      exact hcall.completes hτ hs
    · obtain ⟨τ, hcall, hτ⟩ := callRuns_grow hparts hps hm c hi h hpages hle hz hstack
      exact hcall.completes hτ hs

/-- A module with one page, which may have three, beside the library. -/
def growingParts : List Part := [.library, .module "demo" (memoryModule ⟨1, some 3⟩)]

/-- Once the module has been booted, it gets two pages more if it asks for them, but not three. -/
theorem memories_grow_to_three : ∃ ps s₂ s₃, Part.Give growingParts ps ∧
    Holds (fun σ => σ.operands = some (entries [.int 2]) ∧ σ.sizes "demo" = [1]) s₂ ∧
    Holds (fun σ => σ.operands = some (entries [.int 3]) ∧ σ.sizes "demo" = [1]) s₃ ∧
    Completes (ps.foldl Code.addProgram {}) "demo" [.call (.memory 0 .grow)] s₂
      (fun τ => τ.operands = some (entries [.int 1]) ∧ τ.sizes "demo" = [3]) ∧
    Completes (ps.foldl Code.addProgram {}) "demo" [.call (.memory 0 .grow)] s₃
      fun τ => τ.operands = some (entries [.int (-1)]) ∧ τ.sizes "demo" = [1] := by
  obtain ⟨p, c, hinit, hspaces⟩ : ∃ p, ∃ c : Compiled "demo" (memoryModule ⟨1, some 3⟩) p,
      c.init = initHead c.spaces ∧ c.spaces = IndexSpaces.declared (memoryModule ⟨1, some 3⟩) :=
    exists_compiled_memoryModule rfl rfl
  obtain ⟨ps, σ, hps, ⟨machine, -, -, hs⟩, hP, -, hz⟩ :=
    c.exists_boot hinit (fun e he => nomatch he) orderly_memoryModule
  let P := firstPaging "demo" c.spaces
  have hmemory : c.spaces.memories[0]? = some (.defined ⟨1, some 3⟩) := by
    rw [hspaces]
    rfl
  have hpages : P.pages? ⟨"demo", 0⟩ = some [Page.zero] := by
    show (firstPaging "demo" c.spaces).pages? ⟨"demo", 0⟩ = _
    rw [hspaces]
    rfl
  have himports : ∀ ns m, .module ns m ∈ growingParts → NoInternalImports m := by
    intro ns m hm
    obtain hm | hm := List.mem_cons.1 hm
    · cases hm
    · cases List.mem_singleton.1 hm
      exact fun i hi => nomatch hi
  obtain ⟨-, -, hrequests⟩ := memories_grow_within_bounds orderly_memoryModule himports hps
    (List.mem_cons_of_mem _ List.mem_cons_self) c.spacesOk hmemory
  have hsizes : ∀ {τ}, P.ShownBy τ → τ.sizes "demo" = [1] := by
    intro τ hτ
    have hmems : P.mems "demo" = [[Page.zero]] := by
      show (firstPaging "demo" c.spaces).mems "demo" = _
      rw [hspaces]
      rfl
    rw [hτ.sizes_eq, hmems]
    rfl
  -- The number of wanted pages is put onto the operand stack.
  have hwanted : ∀ d : Int32, ∃ s : Store, s.Models (σ.setOperands [.int d]) := fun d => by
    obtain ⟨s, -, hs⟩ : ∃ s, write "" .stack (entries [.int d]) machine.store = .ok _ s ∧
        s.Models _ := hs.write_top rfl
    exact ⟨s, hs⟩
  have hshown : ∀ xs, P.ShownBy (σ.setOperands xs) := fun xs =>
    hP.setCell (by decide) (by decide)
  have hzero : ∀ xs, HasZeroPage (σ.setOperands xs) := fun xs => by
    simp [HasZeroPage, State.setOperands, hz]
  have hgrow : ∀ (d : Int32) (s : Store), s.Models (σ.setOperands [.int d]) → _ := fun d s hs =>
    (hrequests s _ P [Page.zero] [] hs (hshown _) hpages (by decide) (hzero _)).2 d
      (State.operands_setOperands _ _)
  obtain ⟨s₂, hs₂⟩ := hwanted 2
  obtain ⟨s₃, hs₃⟩ := hwanted 3
  refine ⟨ps, s₂, s₃, hps, ⟨_, hs₂, State.operands_setOperands _ _, hsizes (hshown _)⟩,
    ⟨_, hs₃, State.operands_setOperands _ _, hsizes (hshown _)⟩, ?_, ?_⟩
  · apply (hgrow 2 s₂ hs₂).mono
    intro τ hτ
    rw [if_pos (by decide)] at hτ
    refine ⟨hτ.keeps.operands.trans (State.operands_setOperands _ _), ?_⟩
    rw [(hshown [.int 2]).sizes_grow hpages hτ.shown, Sizes.grown, Function.update_self,
      hsizes (hshown [.int 2])]
    rfl
  · apply (hgrow 3 s₃ hs₃).mono
    intro τ hτ
    rw [if_neg (by decide)] at hτ
    exact ⟨hτ.keeps.operands.trans (State.operands_setOperands _ _), hsizes hτ.shown⟩

end WasmPack.Machine
