/-
  WasmPack.Proofs.Access.Requests

  What a host sees of the memories of loaded modules.

  A host asks memories for bytes, for their sizes and for more pages, in any
  order, and under any names that pass these operations on.  Each answer is the
  one that independent byte memories would give: what is read at an address is
  what was last written there, however many memories have used the window in
  between.
-/
import WasmPack.Proofs.Access.Contents
import WasmPack.Proofs.Access.Memory
import WasmPack.Proofs.Calls.Chain
import WasmPack.Proofs.Sizes.Parts

namespace WasmPack

open Machine Compile
open Nbt (entries)

/-! ## Demands -/

/-- What a host may ask of a memory. -/
inductive Demand where
  | get (address : UInt32)
  | set (address : UInt32) (value : Int32)
  | size
  | grow (count : Int32)

/-- The operation that is to be called. -/
def Demand.op : Demand → MemoryOp
  | .get _ => .get
  | .set _ _ => .set
  | .size => .size
  | .grow _ => .grow

/-- It is one that other modules may call. -/
theorem Demand.op_mem_exported (d : Demand) : d.op ∈ MemoryOp.exported := by
  cases d <;> simp [op, MemoryOp.exported]

/-- What a host does: it puts an address and a value into registers, or a number of pages onto the
    operand stack, and calls what has the name. -/
def Demand.request (name : String) : Demand → Request Unit
  | .get address => do
    onStore (setScore .index address.toInt32)
    call name
  | .set address value => do
    onStore (setScore .index address.toInt32)
    onStore (setScore .a value)
    call name
  | .size => call name
  | .grow count => do
    onStore (push count)
    call name

/-- What memories answer: the byte at an address, a number of pages, or nothing; or that a page is
    missing. -/
inductive Answer where
  | byte (b : UInt8)
  | pages (n : Int32)
  | done
  | missing

namespace Contents

variable (C : Contents) (m : PagedMemory)

/-- Whether the memory may have so many more pages. -/
def Grants (count : Int32) : Prop := C.size m.id + count.toUInt32.toNat ≤ m.max.toNat

instance (count : Int32) : Decidable (C.Grants m count) := inferInstanceAs (Decidable (_ ≤ _))

/-- The memory may have the page of the address, but has not. -/
def Lacks (address : UInt32) : Prop :=
  C.size m.id ≤ pageOf address ∧ pageOf address < m.max.toNat

instance (address : UInt32) : Decidable (C.Lacks m address) := inferInstanceAs (Decidable (_ ∧ _))

/-- What a memory with the contents answers.  Of a page that it cannot have it says nothing. -/
def answer : Demand → Answer
  | .get address =>
    if pageOf address < C.size m.id then .byte (C.byte m.id address)
    else if pageOf address < m.max.toNat then .missing else .done
  | .set address _ => if C.Lacks m address then .missing else .done
  | .size => .pages (Int32.ofNat (C.size m.id))
  | .grow count => .pages (if C.Grants m count then Int32.ofNat (C.size m.id) else -1)

/-- The contents behind the answer. -/
def after : Demand → Contents
  | .get _ => C
  | .set address value =>
    if pageOf address < C.size m.id then C.set m.id address value.toInt8.toUInt8 else C
  | .size => C
  | .grow count => if C.Grants m count then C.grow m.id count.toUInt32.toNat else C

variable {C m} {address : UInt32} {value : Int32}

theorem answer_get_of_lt (h : pageOf address < C.size m.id) :
    C.answer m (.get address) = .byte (C.byte m.id address) := if_pos h

theorem answer_get_of_lacks (h : C.Lacks m address) : C.answer m (.get address) = .missing :=
  (if_neg (Nat.not_lt.2 h.1)).trans (if_pos h.2)

theorem answer_get_of_le (h : C.size m.id ≤ pageOf address) (hmax : m.max.toNat ≤ pageOf address) :
    C.answer m (.get address) = .done :=
  (if_neg (Nat.not_lt.2 h)).trans (if_neg (Nat.not_lt.2 hmax))

theorem answer_set_of_lacks (h : C.Lacks m address) : C.answer m (.set address value) = .missing :=
  if_pos h

theorem answer_set_of_not_lacks (h : ¬C.Lacks m address) :
    C.answer m (.set address value) = .done := if_neg h

theorem after_set_of_lt (h : pageOf address < C.size m.id) :
    C.after m (.set address value) = C.set m.id address value.toInt8.toUInt8 := if_pos h

theorem answer_grow_of_grants {count : Int32} (h : C.Grants m count) :
    C.answer m (.grow count) = .pages (Int32.ofNat (C.size m.id)) := congrArg _ (if_pos h)

theorem answer_grow_of_not_grants {count : Int32} (h : ¬C.Grants m count) :
    C.answer m (.grow count) = .pages (-1) := congrArg _ (if_neg h)

theorem after_grow_of_grants {count : Int32} (h : C.Grants m count) :
    C.after m (.grow count) = C.grow m.id count.toUInt32.toNat := if_pos h

theorem after_grow_of_not_grants {count : Int32} (h : ¬C.Grants m count) :
    C.after m (.grow count) = C := if_neg h

theorem after_set_of_le (h : C.size m.id ≤ pageOf address) : C.after m (.set address value) = C :=
  if_neg (Nat.not_lt.2 h)

end Contents

namespace Machine

variable {code : Code} {parts : List Part} {ps : List Program} {C C' : Contents} {xs ys : List Nbt}
  {σ τ : State} {m : PagedMemory} {address : UInt32} {name : String} {rs : List Register}
  {r : Except Fault Unit} {n : Nat}

/-- How a host is told the answer: a byte with its sign in `#a`, a number on top of the operand
    stack. -/
inductive Told (xs : List Nbt) : Answer → Except Fault Unit → State → List Nbt → Prop where
  | byte {b : UInt8} {σ : State} (h : σ.regs .a = some b.toInt8.toInt32) :
      Told xs (.byte b) (.ok ()) σ xs
  | pages {n : Int32} {σ : State} : Told xs (.pages n) (.ok ()) σ (xs ++ [.int n])
  | done {σ : State} : Told xs .done (.ok ()) σ xs
  | missing {path : String} {σ : State} : Told xs .missing (.error (.missingPath path)) σ xs

/-! ## States that serve -/

/-- The state serves the memories of modules with these contents: it shows them with a window that
    can be stored, constants and the page of zeros are there, and the operands are these. -/
structure Serving (parts : List Part) (C : Contents) (xs : List Nbt) (σ : State) : Prop where
  seeded : Seeded σ
  zeroPage : HasZeroPage σ
  operands : σ.operands = some (entries xs)
  memories : ∃ (P : Paging) (w : Window), P.ShownBy σ ∧ P.Carries parts C w

namespace Serving

theorem setReg (h : Serving parts C xs σ) {q : Register} (hq : q.isWork = true) (v : Int32) :
    Serving parts C xs (σ.setReg q v) := by
  obtain ⟨P, w, hP, hC⟩ := h.memories
  exact ⟨Seeded.ignores.setReg v h.seeded hq, h.zeroPage, h.operands, P, w, hP.setReg, hC⟩

theorem setOperands (h : Serving parts C xs σ) : Serving parts C ys (σ.setOperands ys) := by
  obtain ⟨P, w, hP, hC⟩ := h.memories
  refine ⟨h.seeded, ?_, State.operands_setOperands .., P, w, ?_, hC⟩
  · simpa [HasZeroPage, State.setOperands] using h.zeroPage
  · exact hP.setCell (by decide) (by decide)

/-- Whatever has changed of the memories, the rest serves as before. -/
theorem of_keepsBut (h : Serving parts C xs σ) (hk : KeepsBut rs σ τ)
    (hrs : ∀ q ∈ rs, q.isWork = true) {P : Paging} {w : Window} (hP : P.ShownBy τ)
    (hC : P.Carries parts C' w) : Serving parts C' xs τ :=
  ⟨consts_of_keepsBut hrs hk h.seeded,
    (hk.cells _ _ (by decide) (by decide) (by decide)).trans h.zeroPage,
    hk.operands.trans h.operands, P, w, hP, hC⟩

end Serving

/-! ## One demand -/

/-- What the host leaves behind in registers and operands when it calls. -/
def prepared (xs : List Nbt) (σ : State) : Demand → State
  | .get address => σ.setReg .index address.toInt32
  | .set address value => (σ.setReg .index address.toInt32).setReg .a value
  | .size => σ
  | .grow count => σ.setOperands (xs ++ [.int count])

/-- What is called ends, the answer is told, and the memories are served with what is to be their
    contents then. -/
def Answers (parts : List Part) (code : Code) (C : Contents) (xs : List Nbt) (σ : State)
    (m : PagedMemory) (name : String) (d : Demand) : Prop :=
  ∃ r τ ys, CallRuns code name (prepared xs σ d) r τ ∧ Told xs (C.answer m d) r τ ys ∧
    Serving parts (C.after m d) ys τ

section Demands

variable (hparts : Orderly parts) (hps : Part.Give parts ps)
  (hdef : Part.Defines parts m.id m.max)

include hparts hps hdef

/-- An operation of a memory without pages is found. -/
theorem exists_pageless (hmax : m.max = 0) (op : MemoryOp) {cs : List Command}
    (hop : ⟨.memory (UInt32.ofNat m.id.index) op, cs⟩ ∈
      pagelessSequences (UInt32.ofNat m.id.index)) :
    (ps.foldl Code.addProgram {}).function (m.operation op) = .ok ⟨m.id.ns, cs⟩ := by
  obtain ⟨wasm, p, limits, hmem, hlimits, c, hi⟩ := hdef.exists_compiled hps
  exact pageless_function hparts hps hmem c hi (hlimits.symm.trans hmax) hop

variable (h : Serving parts C xs σ)

include h

/-- Reading. -/
theorem answers_get : Answers parts (ps.foldl Code.addProgram {}) C xs σ m (m.operation .get)
    (.get address) := by
  have hready := h.setReg (q := .index) rfl address.toInt32
  obtain ⟨P, w, hP, hC⟩ := hready.memories
  have hle := hC.size_le m.id m.max hdef
  unfold Answers
  by_cases hmax : m.max = 0
  · rw [Contents.answer_get_of_le (by simp_all) (by simp [hmax])]
    have hfound := exists_pageless hparts hps hdef hmax .get (by simp [pagelessSequences]; rfl)
    exact ⟨_, _, xs, ⟨_, hfound, .plain steps_setScore .nil⟩, .done,
      hready.setReg (q := .a) rfl 0⟩
  · have hm := Part.mem_allMemories_iff.2 ⟨hdef, hmax⟩
    have hms := hparts.marked hps
    have haddress : Addressed (σ.setReg .index address.toInt32) address :=
      ⟨hready.seeded _ (by decide), by simp⟩
    have hruns := runs_get (hparts.pages hps) (hparts.hasLibrary hps) hm hP hC.sound.window haddress
    have hfound := ((hparts.pages hps).hasMemory m hm).get
    by_cases hsize : pageOf address < C.size m.id
    · obtain ⟨Q, data, hQ, hdata, hQC⟩ := hC.swapIn_loads hm hms hsize
      rw [hQ] at hruns
      obtain ⟨w', τ, hw', hruns, hshown, hkeeps, ha⟩ := hruns
      obtain rfl : w' = ⟨data, m.id.mark, Int32.ofNat (pageOf address)⟩ :=
        Option.some.inj (hw'.symm.trans hQC.sound.window)
      have hbyte : (data.byte (offsetOf address)).toUInt8 = C.byte m.id address := by
        have hbytes := congrFun (hC.bytes m hm) address
        rw [Contents.bytes_of_lt hsize, Paging.bytes, hdata] at hbytes
        exact Option.some.inj hbytes
      rw [Contents.answer_get_of_lt hsize, ← hbyte]
      exact ⟨_, τ, xs, ⟨_, hfound, hruns⟩, .byte (by rw [ha, Int8.toInt8_toUInt8]),
        hready.of_keepsBut hkeeps (by decide) hshown hQC⟩
    -- A page that is missing below the maximum makes the fault routine fail; one beyond it is
    -- passed over, and the byte that is read is of whatever was in the window.
    · have hge : C.size m.id ≤ pageOf address := Nat.le_of_not_lt hsize
      by_cases hmissing : pageOf address < m.max.toNat
      · obtain ⟨Q, hQ, hQC⟩ := hC.swapIn_misses hm hge hmissing (pageOf_lt address)
        rw [hQ] at hruns
        obtain ⟨path, τ, hruns, hshown, hkeeps⟩ := hruns
        rw [Contents.answer_get_of_lacks ⟨hge, hmissing⟩]
        exact ⟨_, τ, xs, ⟨_, hfound, hruns⟩, .missing,
          hready.of_keepsBut hkeeps (by decide) hshown hQC⟩
      · have hbeyond : m.max.toNat ≤ pageOf address := Nat.le_of_not_lt hmissing
        obtain ⟨Q, hQ, hQC⟩ := hC.swapIn_passes hm hms hparts.apart hbeyond (pageOf_lt address)
        rw [hQ] at hruns
        obtain ⟨w', τ, -, hruns, hshown, hkeeps, -⟩ := hruns
        rw [Contents.answer_get_of_le hge hbeyond]
        exact ⟨_, τ, xs, ⟨_, hfound, hruns⟩, .done,
          hready.of_keepsBut hkeeps (by decide) hshown hQC⟩

/-- Writing. -/
theorem answers_set {value : Int32} : Answers parts (ps.foldl Code.addProgram {}) C xs σ m
    (m.operation .set) (.set address value) := by
  have hready := (h.setReg (q := .index) rfl address.toInt32).setReg (q := .a) rfl value
  obtain ⟨P, w, hP, hC⟩ := hready.memories
  have hle := hC.size_le m.id m.max hdef
  unfold Answers
  by_cases hmax : m.max = 0
  · have hge : C.size m.id ≤ pageOf address := by simp_all
    rw [Contents.answer_set_of_not_lacks (by simp [Contents.Lacks, hmax]),
      Contents.after_set_of_le hge]
    have hfound := exists_pageless hparts hps hdef hmax .set (by simp [pagelessSequences]; rfl)
    exact ⟨_, _, xs, ⟨_, hfound, .nil⟩, .done, hready⟩
  · have hm := Part.mem_allMemories_iff.2 ⟨hdef, hmax⟩
    have hms := hparts.marked hps
    have haddress : Addressed ((σ.setReg .index address.toInt32).setReg .a value) address :=
      ⟨hready.seeded _ (by decide), by simp⟩
    have hvalue : ((σ.setReg .index address.toInt32).setReg .a value).regs .a = some value := by simp
    have hends := ends_set (hparts.pages hps) (hparts.hasLibrary hps) hm hP hC.sound.window haddress
      hvalue
    have hfound := ((hparts.pages hps).hasMemory m hm).set
    by_cases hlacks : C.Lacks m address
    · obtain ⟨Q, hQ, hQC⟩ := hC.swapIn_misses hm hlacks.1 hlacks.2 (pageOf_lt address)
      rw [hQ] at hends
      obtain ⟨path, τ, hruns, hshown, hkeeps⟩ := hends
      rw [Contents.answer_set_of_lacks hlacks, Contents.after_set_of_le hlacks.1]
      exact ⟨_, τ, xs, ⟨_, hfound, hruns⟩, .missing,
        hready.of_keepsBut hkeeps (by decide) hshown hQC⟩
    · rw [Contents.answer_set_of_not_lacks hlacks]
      by_cases hsize : pageOf address < C.size m.id
      · obtain ⟨Q, data, hQ, hdata, hQC⟩ := hC.swapIn_loads hm hms hsize
        rw [hQ] at hends
        obtain ⟨τ, hruns, hshown, hkeeps⟩ := hends
        rw [Contents.after_set_of_lt hsize]
        exact ⟨_, τ, xs, ⟨_, hfound, hruns⟩, .done,
          hready.of_keepsBut hkeeps (by decide) hshown (hQC.setWindowByte hms hm hsize)⟩
      -- Beyond the maximum the byte goes into a window that no page of the memory stands behind.
      · have hge : C.size m.id ≤ pageOf address := Nat.le_of_not_lt hsize
        obtain ⟨Q, hQ, hQC⟩ := hC.swapIn_passes hm hms hparts.apart
          (by unfold Contents.Lacks at hlacks; omega) (pageOf_lt address)
        rw [hQ] at hends
        obtain ⟨τ, hruns, hshown, hkeeps⟩ := hends
        rw [Contents.after_set_of_le hge]
        exact ⟨_, τ, xs, ⟨_, hfound, hruns⟩, .done,
          hready.of_keepsBut hkeeps (by decide) hshown (hQC.setWindowByte_beyond hms hm hge)⟩

/-- Asking for the size. -/
theorem answers_size : Answers parts (ps.foldl Code.addProgram {}) C xs σ m (m.operation .size)
    .size := by
  obtain ⟨P, w, hP, hC⟩ := h.memories
  obtain ⟨pages, hpages, hlength⟩ := hC.exists_pages hdef
  have hle := hC.size_le m.id m.max hdef
  obtain ⟨wasm, p, limits, hmem, hlimits, c, hi⟩ := hdef.exists_compiled hps
  obtain ⟨τ, hcall, hτ⟩ := callRuns_size hparts hps hmem c hi hP hpages
    (by rw [hlength, ← hlimits]; exact hle) h.operands
  rw [hlength] at hτ
  exact ⟨_, τ, _, hcall, .pages,
    h.setOperands.of_keepsBut hτ.keeps (by decide) hτ.shown hC⟩

/-- Asking for more pages. -/
theorem answers_grow {count : Int32} : Answers parts (ps.foldl Code.addProgram {}) C xs σ m
    (m.operation .grow) (.grow count) := by
  have hready : Serving parts C (xs ++ [.int count]) (σ.setOperands (xs ++ [.int count])) :=
    h.setOperands
  obtain ⟨P, w, hP, hC⟩ := hready.memories
  obtain ⟨pages, hpages, hlength⟩ := hC.exists_pages hdef
  have hle := hC.size_le m.id m.max hdef
  obtain ⟨wasm, p, limits, hmem, hlimits, c, hi⟩ := hdef.exists_compiled hps
  obtain ⟨τ, hcall, hτ⟩ := callRuns_grow hparts hps hmem c hi hP hpages
    (by rw [hlength, ← hlimits]; exact hle) hready.zeroPage hready.operands
  rw [hlength, ← hlimits] at hτ
  unfold Answers
  by_cases hroom : C.size m.id + count.toUInt32.toNat ≤ m.max.toNat
  · rw [if_pos hroom] at hτ
    rw [Contents.answer_grow_of_grants hroom, Contents.after_grow_of_grants hroom]
    exact ⟨_, τ, _, hcall, .pages, hready.setOperands.of_keepsBut hτ.keeps (by decide) hτ.shown
      (hC.grow hparts.apart hdef hroom)⟩
  · rw [if_neg hroom] at hτ
    rw [Contents.answer_grow_of_not_grants hroom, Contents.after_grow_of_not_grants hroom]
    exact ⟨_, τ, _, hcall, .pages,
      hready.setOperands.of_keepsBut hτ.keeps (by decide) hτ.shown hC⟩

/-- **Every demand is answered**, and the memories have then the contents that they should. -/
theorem answers (d : Demand) :
    Answers parts (ps.foldl Code.addProgram {}) C xs σ m (m.operation d.op) d := by
  cases d with
  | get address => exact answers_get hparts hps hdef h
  | set address value => exact answers_set hparts hps hdef h
  | size => exact answers_size hparts hps hdef h
  | grow count => exact answers_grow hparts hps hdef h

end Demands

/-! ## Under any name -/

/-- What is called under the name comes to what another name means, through functions that do
    nothing but call the next one. -/
inductive PassesTo (code : Code) (target : String) : String → Prop where
  | here : PassesTo code target target
  | forward {name ns : String} {q : Symbol} (hf : code.function name = .ok ⟨ns, [.call q]⟩)
      (h : PassesTo code target (q.qualifiedName ns)) : PassesTo code target name

theorem CallRuns.passed {target : String} (h : CallRuns code target σ r τ)
    (hname : PassesTo code target name) : CallRuns code name σ r τ := by
  induction hname with
  | here => exact h
  | forward hf _ ih => exact ih.forward hf

/-- The names under which modules offer an operation of a memory: its own, that of an export, and
    that of an import. -/
inductive CalledAs (parts : List Part) (m : PagedMemory) (op : MemoryOp) : String → Prop where
  | own : CalledAs parts m op (m.operation op)
  | exported {ns : String} {wasm : Wasm.Module} {spaces : IndexSpaces} {e : Wasm.Export}
      (hm : Present parts ns wasm spaces) (he : e ∈ wasm.exports) (hkind : e.kind = .memory)
      (h : CalledAs parts m op ((Symbol.memory e.index op).qualifiedName ns)) :
      CalledAs parts m op ((Symbol.exportMemory e.name op).qualifiedName ns)
  | imported {ns : String} {wasm : Wasm.Module} {spaces : IndexSpaces} {i : Nat}
      {source : ExternalId} (hm : .module ns wasm ∈ parts)
      (hspaces : IndexSpaces.ofModule wasm = .ok spaces)
      (hi : spaces.memories[i]? = some (.imported source))
      (h : CalledAs parts m op ((Symbol.importMemory source op).qualifiedName ns)) :
      CalledAs parts m op ((Symbol.memory (UInt32.ofNat i) op).qualifiedName ns)

/-- All of these come to the operation. -/
theorem CalledAs.passesTo {op : MemoryOp} (h : CalledAs parts m op name)
    (hparts : Orderly parts) (hps : Part.Give parts ps) (hop : op ∈ MemoryOp.exported) :
    PassesTo (ps.foldl Code.addProgram {}) (m.operation op) name := by
  induction h with
  | own => exact .here
  | @exported ns wasm spaces e hm he hkind _ ih =>
    exact .forward (hm.exportMemory_function hparts.apart hps he hkind hop) ih
  | @imported ns wasm spaces i source hm hspaces hi _ ih =>
    obtain ⟨p, -, hp⟩ := hps.exists_program hm
    obtain ⟨c⟩ := Compile.exists_compiled hp
    obtain rfl : c.spaces = spaces := Except.ok.inj (c.spacesOk.symm.trans hspaces)
    exact .forward (hparts.memory_function hps hm c hi (List.mem_map.2 ⟨op, hop, rfl⟩)) ih

/-! ## Requests -/

/-- How a request of a host ends. -/
def ending (s : Machine) : Except Fault Unit → EStateM.Result Fault Machine Unit
  | .ok () => .ok () s
  | .error e => .error e s

/-- With so many commands allowed, the request ends so on every machine in the state. -/
def Brings (code : Code) (request : Request Unit) (σ : State) (r : Except Fault Unit) (τ : State)
    (n : Nat) : Prop :=
  ∀ s : Machine, s.code = code → s.store.Models σ → n ≤ s.gasLimit → ∃ s' : Machine,
    request s = ending s' r ∧ s'.code = code ∧ s'.gasLimit = s.gasLimit ∧ s'.store.Models τ

namespace CallRuns

/-- A request to call what runs ends as the run does. -/
theorem exists_brings (h : CallRuns code name σ r τ) : ∃ n, Brings code (call name) σ r τ n := by
  obtain ⟨f, hf, hruns⟩ := h
  obtain ⟨n, hn⟩ := hruns.run_of_le
  refine ⟨n, fun s hcode hs hle => ?_⟩
  obtain ⟨code, store, gas, limit⟩ := s
  obtain rfl : code = _ := hcode
  obtain ⟨store', hrun, hs'⟩ := hn store hs limit hle
  refine ⟨⟨code, store', n, limit⟩, ?_, rfl, rfl, hs'⟩
  unfold call runFunction
  simp only [hf, hrun]
  cases r <;> rfl

end CallRuns

/-- What a host does to the store comes before a request. -/
theorem Brings.onStore {work : Exec Unit} {request : Request Unit} {σ₁ : State}
    (h : Brings code request σ₁ r τ n) (hwork : Does σ work () σ₁) :
    Brings code (do Machine.onStore work; request) σ r τ n := by
  rintro ⟨code, store, gas, limit⟩ rfl hs hle
  obtain ⟨store', hdone, hs'⟩ := hwork store hs
  obtain ⟨s', hrequest, hrest⟩ := h ⟨code, store', gas, limit⟩ rfl hs' hle
  refine ⟨s', Eq.trans ?_ hrequest, hrest⟩
  show EStateM.bind (Machine.onStore work) (fun _ => request) _ = _
  unfold EStateM.bind Machine.onStore
  simp only [hdone]

/-- What the host prepares is there when it calls. -/
theorem brings_request {d : Demand} (hstack : σ.operands = some (entries xs))
    (h : Brings code (call name) (prepared xs σ d) r τ n) :
    Brings code (d.request name) σ r τ n := by
  cases d with
  | get address => exact h.onStore .setScore
  | set address value => exact (h.onStore .setScore).onStore .setScore
  | size => exact h
  | grow count => exact h.onStore (does_push hstack count)

/-! ## Requests one after the other -/

/-- A demand on a memory, and the name under which the host makes it. -/
structure Exchange where
  memory : PagedMemory
  demand : Demand
  name : String

namespace Exchange

/-- The memory is defined by a module, and the name is one of its operation. -/
structure Valid (parts : List Part) (e : Exchange) : Prop where
  defines : Part.Defines parts e.memory.id e.memory.max
  calledAs : CalledAs parts e.memory e.demand.op e.name

end Exchange

/-- The machine answers the demands one after the other as memories with the contents do, and serves
    them all the time. -/
def Follows (parts : List Part) : Machine → Contents → List Nbt → List Exchange → Prop
  | s, C, xs, [] => Holds (Serving parts C xs) s.store
  | s, C, xs, e :: es => Holds (Serving parts C xs) s.store ∧ ∃ r s' τ ys,
      e.demand.request e.name s = ending s' r ∧ s'.store.Models τ ∧
        Told xs (C.answer e.memory e.demand) r τ ys ∧
        Follows parts s' (C.after e.memory e.demand) ys es

/-- With enough commands allowed, a machine that serves memories answers all demands. -/
theorem Serving.exists_follows (hparts : Orderly parts) (hps : Part.Give parts ps)
    (es : List Exchange) (hes : ∀ e ∈ es, e.Valid parts)
    (h : Serving parts C xs σ) : ∃ n, ∀ s : Machine, s.code = ps.foldl Code.addProgram {} →
      s.store.Models σ → n ≤ s.gasLimit → Follows parts s C xs es := by
  induction es generalizing C xs σ with
  | nil => exact ⟨0, fun s _ hs _ => ⟨σ, hs, h⟩⟩
  | cons e es ih =>
    obtain ⟨hdef, hname⟩ := hes e List.mem_cons_self
    have hpasses := hname.passesTo hparts hps e.demand.op_mem_exported
    obtain ⟨r, τ, ys, hcall, htold, hserving⟩ := answers hparts hps hdef h e.demand
    obtain ⟨n₁, h₁⟩ := (hcall.passed hpasses).exists_brings
    obtain ⟨n₂, h₂⟩ := ih (fun e' he' => hes e' (List.mem_cons_of_mem e he')) hserving
    refine ⟨max n₁ n₂, fun s hcode hs hle => ⟨⟨σ, hs, h⟩, ?_⟩⟩
    obtain ⟨s', hrequest, hcode', hlimit, hs'⟩ :=
      brings_request h.operands h₁ s hcode hs (by omega)
    exact ⟨r, s', τ, ys, hrequest, hs', htold, h₂ s' hcode' hs' (by omega)⟩

end Machine

end WasmPack
