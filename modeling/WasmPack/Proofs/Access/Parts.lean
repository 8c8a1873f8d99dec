/-
  WasmPack.Proofs.Access.Parts

  Loads and stores in the code of modules.

  Where modules have been loaded beside the library, none of them with an export
  that looks internal, what a load reads is what the last stores wrote: the bytes
  of a memory are at their addresses, whichever pages they are in.
-/
import WasmPack.Proofs.Access.Loads
import WasmPack.Proofs.Execution.Along
import WasmPack.Proofs.Paging.Preparation

namespace WasmPack

open Machine Compile Wasm
open Nbt (entries)

variable {parts : List Part} {ps : List Program}

namespace Machine

variable {code : Code} {s : Store} {σ σ' : State} {ns : String} {cs : List Command}
  {Q : State → Prop} {ms : List PagedMemory} {P : Paging} {w : Window} {B : Bytes}
  {m : PagedMemory} {a : Int32}

/-- While no memory owns the window, every byte is in its page. -/
theorem holding_of_empty_owner (hconsts : ∀ n ∈ Register.seeded, σ.regs (.const n) = some n)
    (hP : P.ShownBy σ) (hw : P.window = some w) (howner : w.owner = "")
    (hbounded : ∀ m ∈ ms, ∀ page, (P.page? m.id page).isSome → page < m.max.toNat) :
    Holding ms (P.bytes w) σ :=
  ⟨hconsts, P, w, hP, Paging.sound_of_empty_owner hw howner hbounded, fun _ _ => rfl⟩

/-- **Loads and stores are accesses to bytes, the lowest first.**  Where all bytes of an access to
    the first memory of a module are there, a store leaves them as the bytes of its value and every
    other byte as it is, and a load leaves the number that they spell and every byte as it is. -/
theorem accesses_littleEndian (arg : MemArg) (low : List Nbt) (hparts : Orderly parts)
    (hps : Part.Give parts ps) (hcode : ps.foldl Code.addProgram {} = code)
    (hm : m ∈ allMemories (groupsOf parts)) (h0 : m.id.index = 0) (hs : s.Models σ)
    (h : Holding (allMemories (groupsOf parts)) B σ) :
    (∀ (op : LoadOp) (byte : Nat → UInt8), lowerLoad op arg = .ok cs →
      σ.operands = some (entries (low ++ [.int a])) →
      (∀ k < op.width, B m.id (a.toUInt32 + arg.offset + UInt32.ofNat k) = some (byte k)) →
      Completes code m.id.ns cs s fun τ =>
        τ.operands = some (entries (low ++ [.int (op.value ((List.range op.width).map byte))])) ∧
          Holding (allMemories (groupsOf parts)) B τ) ∧
    ∀ (op : StoreOp) (v : Int32), lowerStore op arg = .ok cs →
      σ.operands = some (entries (low ++ [.int a, .int v])) →
      (∀ k < op.width, (B m.id (a.toUInt32 + arg.offset + UInt32.ofNat k)).isSome) →
      Completes code m.id.ns cs s fun τ =>
        τ.operands = some (entries low) ∧ Holding (allMemories (groupsOf parts))
          (B.write m.id (a.toUInt32 + arg.offset) v op.width) τ := by
  subst hcode
  have hpages := hparts.pages hps
  have hlib := hparts.hasLibrary hps
  have hmarked := hparts.marked hps
  constructor
  · intro op byte hcs hstack hbytes
    obtain ⟨σ', hr, hB, hstack'⟩ := runs_lowerLoad hpages hlib hmarked hm h0 hcs h hstack hbytes
    exact hr.completes hs ⟨hstack', hB⟩
  · intro op v hcs hstack hbytes
    obtain ⟨σ', hr, hB, hstack'⟩ := runs_lowerStore hpages hlib hmarked hm h0 hcs h hstack hbytes
    exact hr.completes hs ⟨hstack', hB⟩

/-- A module with two pages. -/
def pagedModule : Module where
  memories := [⟨2, some 2⟩]

/-- The module beside the library. -/
def pagedParts : List Part := [.library, .module "demo" pagedModule]

/-- What the module is compiled to only prepares its memory. -/
theorem exists_compiled_pagedModule : ∃ p, ∃ c : Compiled "demo" pagedModule p,
    c.init = initHead c.spaces ∧ c.spaces = IndexSpaces.declared pagedModule :=
  exists_compiled_memoryModule rfl rfl

theorem orderly_pagedParts : Orderly pagedParts := orderly_memoryModule

theorem allMemories_pagedParts : allMemories (groupsOf pagedParts) = [⟨⟨"demo", 0⟩, 2⟩] := by
  decide

/-- Once the machine with the library and the module has been booted, both pages are there. -/
theorem exists_holding_pagedParts : ∃ ps, Part.Give pagedParts ps ∧
    ∃ σ B, CanReach pagedParts (ps.foldl Code.addProgram {}) σ ∧
      Holding (allMemories (groupsOf pagedParts)) B σ ∧
      ∀ address : UInt32, address.toNat < 2 * pageSize → (B ⟨"demo", 0⟩ address).isSome := by
  obtain ⟨p, c, hinit, hspaces⟩ := exists_compiled_pagedModule
  obtain ⟨ps, σ, hps, hσ, hP, hconsts, -⟩ :=
    c.exists_boot hinit (fun e he => nomatch he) orderly_pagedParts
  -- The pages are those that the memory begins with.
  have hpages : ∀ page, (firstPaging "demo" c.spaces).page? ⟨"demo", 0⟩ page =
      (List.replicate 2 Page.zero)[page]? := by
    intro page
    rw [hspaces]
    rfl
  have hthere : ∀ page, ((firstPaging "demo" c.spaces).page? ⟨"demo", 0⟩ page).isSome ↔
      page < 2 := by
    intro page
    simp [hpages]
  refine ⟨ps, hps, σ, _, hσ, holding_of_empty_owner hconsts hP rfl rfl fun m hm page hpage => ?_,
    fun address haddress => ?_⟩
  · rw [allMemories_pagedParts, List.mem_singleton] at hm
    subst hm
    exact (hthere page).1 hpage
  · unfold Paging.bytes Paging.current
    rw [Option.isSome_map, Option.isSome_map, hthere]
    exact Nat.div_lt_of_lt_mul (by rwa [Nat.mul_comm])

/-- A number that has been stored across the boundary of two pages is loaded again. -/
theorem accesses_littleEndian_across_pages : ∃ ps storing loading, Part.Give pagedParts ps ∧
    lowerStore (.full .i32) ⟨2, 0⟩ = .ok storing ∧ lowerLoad (.full .i32) ⟨2, 0⟩ = .ok loading ∧
    ∃ s s' gas, Holds (fun σ => σ.operands = some (entries [.int 65534, .int 65534, .int (-2)])) s ∧
      run (ps.foldl Code.addProgram {}) gas 0 [⟨"demo", storing⟩] s = ⟨.ok (), gas, s'⟩ ∧
      Completes (ps.foldl Code.addProgram {}) "demo" loading s'
        fun τ => τ.operands = some (entries [.int (-2)]) := by
  obtain ⟨ps, hps, σ, B, ⟨machine, -, -, hs⟩, h, hthere⟩ := exists_holding_pagedParts
  have hm : ⟨⟨"demo", 0⟩, 2⟩ ∈ allMemories (groupsOf pagedParts) := by
    rw [allMemories_pagedParts]
    exact List.mem_cons_self
  refine ⟨ps, _, _, hps, rfl, rfl, ?_⟩
  -- The address and the value are put onto the operand stack, over the address of the load.
  obtain ⟨s, -, hs⟩ : ∃ s, write "" .stack (entries [.int 65534, .int 65534, .int (-2)])
      machine.store = .ok _ s ∧ s.Models _ := hs.write_top rfl
  have hstack : (σ.setOperands [.int 65534, .int 65534, .int (-2)]).operands =
      some (entries ([.int 65534] ++ [.int 65534, .int (-2)])) := State.operands_setOperands _ _
  have hnear : ∀ k < 4, ((65534 : Int32).toUInt32 + 0 + UInt32.ofNat k).toNat < 2 * pageSize := by
    decide
  obtain ⟨gas, hgas⟩ := (accesses_littleEndian ⟨2, 0⟩ [.int 65534] orderly_pagedParts hps rfl hm rfl
    hs h.setOperands).2 (.full .i32) (-2) rfl hstack fun k hk => hthere _ (hnear k hk)
  obtain ⟨s', hrun, τ, hτ, hstack', h'⟩ := hgas gas (Nat.le_refl gas)
  refine ⟨s, s', gas, ⟨_, hs, hstack⟩, hrun, ?_⟩
  obtain ⟨gas', hgas'⟩ := (accesses_littleEndian ⟨2, 0⟩ [] orderly_pagedParts hps rfl hm rfl hτ
    h').1 (.full .i32) (byteOf (-2)) rfl hstack' fun k hk => Bytes.write_apply_self hk (by decide)
  refine ⟨gas', fun limit hle => ?_⟩
  obtain ⟨s'', hrun', υ, hυ, hstack'', -⟩ := hgas' limit hle
  have hvalue : (LoadOp.full .i32).value ((List.range 4).map (byteOf (-2))) = -2 := by decide
  exact ⟨s'', hrun', υ, hυ, hstack''.trans (congrArg (fun n => some (entries [.int n])) hvalue)⟩

end Machine

end WasmPack
