/-
  WasmPack.Proofs.Access.Memory

  Reading and writing single bytes of memories.

  A state holds memories when its window can be stored and its constants are
  there.  Reading a byte that is there completes and changes no byte; writing one
  completes and changes that byte alone.
-/
import WasmPack.Proofs.Calls.Leads
import WasmPack.Proofs.Paging.Bytes

namespace WasmPack

open Machine Compile Nbt

/-- Paging leaves the operand stack alone. -/
theorem KeepsBut.operands {rs : List Register} {σ σ' : State} (h : KeepsBut rs σ σ') :
    σ'.operands = σ.operands := h.cells _ _ (by decide) (by decide) (by decide)

namespace Machine

variable {code : Code} {gs : List MemoryGroup} {ms : List PagedMemory} {m : PagedMemory}
  {B : Bytes} {σ σ' : State} {ns : String} {address : UInt32} {b : UInt8} {value : Int32}
  {r : Register} {n : Int32} {xs : List Nbt} {rs : List Register}

/-- The state holds certain bytes of memories: it shows memories with these bytes, whose window can
    be stored, and the constants have their values. -/
structure Holding (ms : List PagedMemory) (B : Bytes) (σ : State) : Prop where
  consts : ∀ n ∈ Register.seeded, σ.regs (.const n) = some n
  memories : ∃ (P : Paging) (w : Window),
    P.ShownBy σ ∧ P.Sound w ms ∧ ∀ m ∈ ms, P.bytes w m.id = B m.id

namespace Holding

theorem setReg (h : Holding ms B σ) (hr : r.isWork = true) : Holding ms B (σ.setReg r n) := by
  refine ⟨fun c hc => ?_, ?_⟩
  · have hne : Register.const c ≠ r := by
      rintro rfl
      cases hr
    rw [State.regs_setReg, if_neg hne]
    exact h.consts c hc
  · obtain ⟨P, w, hP, hw, hB⟩ := h.memories
    exact ⟨P, w, hP.setReg, hw, hB⟩

theorem setOperands (h : Holding ms B σ) : Holding ms B (σ.setOperands xs) := by
  obtain ⟨P, w, hP, hw, hB⟩ := h.memories
  exact ⟨h.consts, P, w, hP.setCell (by decide) (by decide), hw, hB⟩

theorem addressed (h : Holding ms B σ) (hindex : σ.regs .index = some address.toInt32) :
    Addressed σ address := ⟨h.consts _ (by decide), hindex⟩

end Holding

/-- Registers that are not worked with keep the constants. -/
theorem consts_of_keepsBut (hrs : ∀ r ∈ rs, r.isWork = true) (hk : KeepsBut rs σ σ')
    (h : ∀ n ∈ Register.seeded, σ.regs (.const n) = some n) :
    ∀ n ∈ Register.seeded, σ'.regs (.const n) = some n := by
  intro n hn
  rw [hk.regs _ fun hmem => ?_]
  · exact h n hn
  · cases hrs _ hmem

section

variable (hcode : code.Pages gs) (hlib : code.HasLibrary) (hms : Paging.Marked (allMemories gs))
  (hm : m ∈ allMemories gs)

include hcode hlib hms hm

/-- **Reading a byte** that is there brings it into `#a` with its sign. -/
theorem runs_getByte (h : Holding (allMemories gs) B σ)
    (hindex : σ.regs .index = some address.toInt32) (hb : B m.id address = some b) :
    ∃ σ', Runs code [⟨m.id.ns, accessCommands (UInt32.ofNat m.id.index) .byteGet⟩] σ (.ok ()) σ' ∧
      Holding (allMemories gs) B σ' ∧ KeepsBut getRegisters σ σ' ∧
      σ'.regs .a = some b.toInt8.toInt32 := by
  obtain ⟨P, w, hP, hw, hB⟩ := h.memories
  obtain ⟨Q, data, hQ, hsound, hbytes, rfl⟩ := Paging.exists_swapIn_of_byte hms hw hm
    ((congrFun (hB m hm) address).trans hb)
  have hget := runs_get hcode hlib hm hP hw.window (h.addressed hindex)
  rw [hQ] at hget
  obtain ⟨w', σ', hw', hr, hshown, hk, ha⟩ := hget
  obtain rfl := Option.some.inj (hw'.symm.trans hsound.window)
  refine ⟨σ', hr, ⟨consts_of_keepsBut (by decide) hk h.consts, Q, _, hshown, hsound,
    fun m' hm' => (hbytes m' hm').trans (hB m' hm')⟩, hk, ?_⟩
  rw [ha, Int8.toInt8_toUInt8]

/-- **Writing a byte** that is there puts the low byte of `#a` into its place, and changes no
    other byte. -/
theorem runs_setByte (h : Holding (allMemories gs) B σ)
    (hindex : σ.regs .index = some address.toInt32) (hb : B m.id address = some b)
    (hvalue : σ.regs .a = some value) :
    ∃ σ', Runs code [⟨m.id.ns, accessCommands (UInt32.ofNat m.id.index) .byteSet⟩] σ (.ok ()) σ' ∧
      Holding (allMemories gs) (B.set m.id address value.toInt8.toUInt8) σ' ∧
      KeepsBut accessRegisters σ σ' := by
  obtain ⟨P, w, hP, hw, hB⟩ := h.memories
  obtain ⟨Q, data, hQ, hsound, hbytes, -⟩ := Paging.exists_swapIn_of_byte hms hw hm
    ((congrFun (hB m hm) address).trans hb)
  have hset := ends_set hcode hlib hm hP hw.window (h.addressed hindex) hvalue
  rw [hQ] at hset
  obtain ⟨σ', hr, hshown, hk⟩ := hset
  refine ⟨σ', hr, ⟨consts_of_keepsBut (by decide) hk h.consts, _, _, hshown,
    Paging.sound_setWindowByte hsound, fun m' hm' => funext fun address' => ?_⟩, hk⟩
  have hlt := pageOf_lt address
  rw [Paging.bytes_setWindowByte hsound ?_ fun page => Paging.holds_iff hlt
    ⟨fun hmark => hms.apart m hm m' hm' hmark, fun hid => congrArg MemoryId.mark hid⟩]
  · rw [Bytes.set_apply, Bytes.set_apply, hbytes m' hm', hB m' hm']
  · have hthere :
        (Q.bytes ⟨data, m.id.mark, Int32.ofNat (pageOf address)⟩ m.id address).isSome := by
      rw [hbytes m hm, hB m hm, hb]
      rfl
    unfold Paging.bytes Paging.current at hthere
    rwa [Option.isSome_map, Option.isSome_map] at hthere

end

/-! ## Addresses -/

section

variable {E : UInt32} {k : Nat} {low : List Nbt} {a : Int32}

/-- The address of a byte is put into `#index`. -/
theorem runs_byteAddress (h : σ.regs .address = some E.toInt32) :
    Runs code [⟨ns, byteAddress k⟩] σ (.ok ())
      (σ.setReg .index (E + UInt32.ofNat k).toInt32) := by
  have hcopy : Steps code.tags ns (.copy .index .address) σ [] _ := steps_copy h
  unfold byteAddress
  by_cases hk : k = 0
  · subst hk
    rw [if_pos rfl]
    have hzero : E + UInt32.ofNat 0 = E := UInt32.add_zero E
    rw [hzero]
    exact .plain hcopy .nil
  · have hadd : Steps code.tags ns (.addScore .index (Int32.ofNat k)) _ [] _ :=
      steps_addScore (show (σ.setReg .index E.toInt32).regs .index = some E.toInt32 from rfl)
    rw [State.setReg_setReg] at hadd
    rw [if_neg hk]
    exact .plain hcopy (.plain hadd .nil)

/-- The address of an access is the operand on top, moved by the static offset. -/
theorem runs_loadAddress (arg : Wasm.MemArg)
    (h : σ.operands = some (entries (low ++ [.int a]))) :
    Runs code [⟨ns, loadAddress arg⟩] σ (.ok ())
      (σ.setReg .address (a.toUInt32 + arg.offset).toInt32) := by
  have hload : Steps code.tags ns (.load .address top) σ [] _ := steps_loadTop h
  unfold loadAddress
  by_cases hoffset : arg.offset = 0
  · rw [if_pos hoffset, hoffset, UInt32.add_zero, Int32.toInt32_toUInt32]
    exact .plain hload .nil
  · have hadd : Steps code.tags ns (.addScore .address arg.offset.toInt32) _ [] _ :=
      steps_addScore (show (σ.setReg .address a).regs .address = some a from rfl)
    rw [State.setReg_setReg] at hadd
    rw [if_neg hoffset, UInt32.toInt32_add, Int32.toInt32_toUInt32]
    exact .plain hload (.plain hadd .nil)

/-- Where the first memory of a module is called, its operation runs. -/
theorem runs_callMemory (hcode : code.Pages gs) (hm : m ∈ allMemories gs) (h0 : m.id.index = 0)
    {op : MemoryOp} {cs : List Command}
    (hs : ⟨.memory (UInt32.ofNat m.id.index) op, cs⟩ ∈
      pagedSequences m.id.ns (UInt32.ofNat m.id.index) m.max)
    (hr : Runs code [⟨m.id.ns, cs⟩] σ (.ok ()) σ') :
    Runs code [⟨m.id.ns, [.call (.memory 0 op)]⟩] σ (.ok ()) σ' := by
  have hfind := (hcode.hasMemory m hm).operation hs
  rw [h0] at hfind
  exact .call .call hfind hr .nil

end

end Machine

end WasmPack
