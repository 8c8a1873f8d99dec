/-
  WasmPack.Proofs.Access.Loads

  What stores write, and what loads leave on the operand stack.

  A store keeps the bytes that are still to be written in `#d`, which writing a
  byte leaves alone, as it does the address of the store.  So the bytes that have
  been written grow one by one, wherever their pages are.  A load gathers its
  bytes in `#c`, which reading a byte leaves alone, and the number gathered grows
  byte by byte.
-/
import WasmPack.Proofs.Access.Memory
import WasmPack.Proofs.Access.Numbers

namespace WasmPack

open Machine Compile Wasm Binary
open Nbt (entries)

/-! ## Stores -/

/-- The number of bytes that the store of a 32-bit integer writes. -/
def Wasm.StoreOp.width : StoreOp → Nat
  | .store8 _ => 1
  | .store16 _ => 2
  | _ => 4

/-! ## Bytes of a number in a row -/

namespace Bytes

variable {B : Bytes} {id : MemoryId} {E : UInt32} {v : Int32} {n : Nat}

/-- The lowest bytes of a number, written one behind the other from an address on.  Behind the last
    address of all comes the first. -/
def write (B : Bytes) (id : MemoryId) (E : UInt32) (v : Int32) (n : Nat) : Bytes :=
  fun id' address =>
    if id' = id ∧ (address - E).toNat < n then some (byteOf v (address - E).toNat)
    else B id' address

theorem write_zero : B.write id E v 0 = B := by
  funext id' address
  rw [write, if_neg fun h => Nat.not_lt_zero _ h.2]

/-- The address of a byte and its distance from the first one determine each other. -/
theorem eq_add_ofNat_iff {address : UInt32} (hn : n < 2 ^ 32) :
    address = E + UInt32.ofNat n ↔ (address - E).toNat = n := by
  rw [← UInt32.toNat_inj, UInt32.toNat_add, UInt32.toNat_sub, UInt32.toNat_ofNat']
  have haddress := address.toNat_lt
  have hE := E.toNat_lt
  omega

theorem write_succ (hn : n < 2 ^ 32) :
    B.write id E v (n + 1) = (B.write id E v n).set id (E + UInt32.ofNat n) (byteOf v n) := by
  funext id' address
  rw [set_apply, write, write]
  simp only [eq_add_ofNat_iff hn]
  by_cases hlast : id' = id ∧ (address - E).toNat = n
  · rw [if_pos hlast, if_pos ⟨hlast.1, by omega⟩, hlast.2]
  · rw [if_neg hlast]
    by_cases hbefore : id' = id ∧ (address - E).toNat < n
    · rw [if_pos hbefore, if_pos ⟨hbefore.1, by omega⟩]
    · rw [if_neg hbefore, if_neg]
      rintro ⟨hid, hlt⟩
      have hne : (address - E).toNat ≠ n := fun h => hlast ⟨hid, h⟩
      exact hbefore ⟨hid, by omega⟩

/-- The bytes of the number are where they have been written. -/
theorem write_apply_self {k : Nat} (hk : k < n) (hn : n ≤ 2 ^ 32) :
    B.write id E v n id (E + UInt32.ofNat k) = some (byteOf v k) := by
  have hdistance : (E + UInt32.ofNat k - E).toNat = k := (eq_add_ofNat_iff (by omega)).1 rfl
  rw [write, hdistance, if_pos ⟨rfl, hk⟩]

theorem isSome_write {id' : MemoryId} {address : UInt32} (h : (B id' address).isSome) :
    (B.write id E v n id' address).isSome := by
  unfold write
  split
  · rfl
  · exact h

end Bytes

namespace Machine

variable {code : Code} {gs : List MemoryGroup} {m : PagedMemory} {B : Bytes} {σ σ' : State}
  {E : UInt32} {v a : Int32} {low : List Nbt} {cs : List Command} {op : StoreOp} {arg : MemArg}
  {width k n : Nat}

/-- The registers that a store works with, its address apart. -/
def storeRegisters : List Register := .d :: getRegisters

section

variable (hcode : code.Pages gs) (hlib : code.HasLibrary) (hms : Paging.Marked (allMemories gs))
  (hm : m ∈ allMemories gs) (h0 : m.id.index = 0)

include hcode hlib hms hm h0

/-- A byte of a store is written, and the next one moved into its place. -/
theorem runs_storeByte (hk : k < 4) (h : Holding (allMemories gs) B σ)
    (haddress : σ.regs .address = some E.toInt32) (hd : σ.regs .d = some (shifted v k))
    (hb : (B m.id (E + UInt32.ofNat k)).isSome) :
    ∃ σ', Runs code [⟨m.id.ns, storeByte width k⟩] σ (.ok ()) σ' ∧
      Holding (allMemories gs) (B.set m.id (E + UInt32.ofNat k) (byteOf v k)) σ' ∧
      KeepsBut storeRegisters σ σ' ∧
      (k + 1 < width → σ'.regs .d = some (shifted v (k + 1))) := by
  obtain ⟨b, hb⟩ := Option.isSome_iff_exists.1 hb
  have hconst : ∀ {τ : State}, Holding (allMemories gs) B τ → τ.regs (.const 256) = some 256 :=
    fun hτ => hτ.consts 256 (by decide)
  have hindex : Runs code [⟨m.id.ns, byteAddress k⟩] σ (.ok ())
      (σ.setReg .index (E + UInt32.ofNat k).toInt32) := runs_byteAddress haddress
  -- The lowest byte of what is left comes into `#a`.
  let σ₁ := ((σ.setReg .index (E + UInt32.ofNat k).toInt32).setReg .a (shifted v k)).setReg .a
    (applyOp .mod (shifted v k) 256)
  have h₁ : Holding (allMemories gs) B σ₁ := ((h.setReg rfl).setReg rfl).setReg rfl
  have hcopy : Steps code.tags m.id.ns (.copy .a .d)
      (σ.setReg .index (E + UInt32.ofNat k).toInt32) [] _ := steps_copy hd
  have hmod : Steps code.tags m.id.ns (.operation .a .mod (.const 256)) _ [] σ₁ :=
    steps_operation (by decide) rfl (hconst ((h.setReg rfl).setReg rfl))
  obtain ⟨σ₂, hset, h₂, hk₂⟩ := runs_setByte hcode hlib hms hm h₁ rfl hb rfl
  rw [toUInt8_applyOp_mod_shifted hk] at h₂
  have hcall : Runs code [⟨m.id.ns, [.call (.memory 0 .set)]⟩] σ₁ (.ok ()) σ₂ :=
    runs_callMemory hcode hm h0 (by simp [pagedSequences]) hset
  have hwrite : Runs code [⟨m.id.ns, byteAddress k ++
      [.copy .a .d, .operation .a .mod (.const 256), .call (.memory 0 .set)]⟩] σ (.ok ()) σ₂ :=
    hindex.seq (.plain hcopy (.plain hmod hcall))
  have hkeep : KeepsBut storeRegisters σ σ₂ :=
    ((((KeepsBut.refl _ σ).setReg (by decide)).setReg (by decide)).setReg (by decide)).trans
      (hk₂.mono (by decide))
  have hd₂ : σ₂.regs .d = some (shifted v k) := (hk₂.regs .d (by decide)).trans hd
  unfold storeByte
  by_cases hlast : k + 1 < width
  · have hdiv : Steps code.tags m.id.ns (.operation .d .div (.const 256)) σ₂ [] _ :=
      steps_operation (by decide) hd₂ (h₂.consts 256 (by decide))
    rw [applyOp_div_shifted] at hdiv
    rw [if_pos hlast]
    exact ⟨_, hwrite.seq (.plain hdiv .nil), h₂.setReg rfl, hkeep.setReg (by decide), fun _ => rfl⟩
  · rw [if_neg hlast]
    exact ⟨σ₂, hwrite.seq .nil, h₂, hkeep, fun h => absurd h hlast⟩

/-- The first bytes of a store are written. -/
theorem runs_storeBytes (hwidth : width ≤ 4) (hn : n ≤ width) (h : Holding (allMemories gs) B σ)
    (haddress : σ.regs .address = some E.toInt32) (hd : σ.regs .d = some v)
    (hb : ∀ k < n, (B m.id (E + UInt32.ofNat k)).isSome) :
    ∃ σ', Runs code [⟨m.id.ns, (List.range n).flatMap (storeByte width)⟩] σ (.ok ()) σ' ∧
      Holding (allMemories gs) (B.write m.id E v n) σ' ∧ KeepsBut storeRegisters σ σ' ∧
      (n < width → σ'.regs .d = some (shifted v n)) := by
  induction n with
  | zero =>
    rw [Bytes.write_zero, shifted_zero]
    exact ⟨σ, .nil, h, .refl _ σ, fun _ => hd⟩
  | succ n ih =>
    obtain ⟨σ₁, hr₁, h₁, hk₁, hd₁⟩ := ih (by omega) fun k hk => hb k (by omega)
    have haddress₁ : σ₁.regs .address = some E.toInt32 := by
      rw [hk₁.regs .address (by decide), haddress]
    obtain ⟨σ', hr', h', hk', hd'⟩ := runs_storeByte hcode hlib hms hm h0 (by omega) h₁ haddress₁
      (hd₁ (by omega)) (Bytes.isSome_write (hb n (by omega)))
    rw [← Bytes.write_succ (by omega)] at h'
    rw [List.range_succ, List.flatMap_append, List.flatMap_singleton]
    exact ⟨σ', hr₁.seq hr', h', hk₁.trans hk', hd'⟩

/-! ## Stores -/

/-- **A store** takes a value and an address from the operand stack, and writes the lowest bytes of
    the value to that address and those behind it.  No other byte changes. -/
theorem runs_lowerStore (hcs : lowerStore op arg = .ok cs) (h : Holding (allMemories gs) B σ)
    (hstack : σ.operands = some (entries (low ++ [.int a, .int v])))
    (hb : ∀ k < op.width, (B m.id (a.toUInt32 + arg.offset + UInt32.ofNat k)).isSome) :
    ∃ σ', Runs code [⟨m.id.ns, cs⟩] σ (.ok ()) σ' ∧
      Holding (allMemories gs) (B.write m.id (a.toUInt32 + arg.offset) v op.width) σ' ∧
      σ'.operands = some (entries low) := by
  have hwidth : ∀ width, storeWidth? op = some width → width = op.width ∧ width ≤ 4 := by
    intro width hw
    unfold storeWidth? at hw
    split at hw <;> cases hw <;> exact ⟨rfl, by decide⟩
  have hpair : low ++ [.int a, .int v] = low ++ [.int a] ++ [.int v] := by simp
  rw [hpair] at hstack
  unfold lowerStore at hcs
  split at hcs
  · rename_i width hw
    cases hcs
    obtain ⟨rfl, hle⟩ := hwidth width hw
    -- The value is taken first, then the address.
    let σ₁ := (σ.setReg .d v).setOperands (low ++ [.int a])
    let σ₂ := (σ₁.setReg .address (a.toUInt32 + arg.offset).toInt32).setOperands low
    have hload : Steps code.tags m.id.ns (.load .d top) σ [] (σ.setReg .d v) := steps_loadTop hstack
    have hdrop : Steps code.tags m.id.ns .dropOperand (σ.setReg .d v) [] σ₁ :=
      steps_dropOperand hstack
    have hstack₁ : σ₁.operands = some (entries (low ++ [.int a])) :=
      State.operands_setOperands _ _
    have haddress : Runs code [⟨m.id.ns, loadAddress arg⟩] σ₁ (.ok ()) _ :=
      runs_loadAddress arg hstack₁
    have hdrop' : Steps code.tags m.id.ns .dropOperand
        (σ₁.setReg .address (a.toUInt32 + arg.offset).toInt32) [] σ₂ :=
      steps_dropOperand hstack₁
    have h₂ : Holding (allMemories gs) B σ₂ :=
      ((h.setReg rfl).setOperands.setReg rfl).setOperands
    obtain ⟨σ', hr, h', hk, -⟩ :=
      runs_storeBytes hcode hlib hms hm h0 hle (Nat.le_refl _) h₂ rfl rfl hb
    have hargs : Runs code [⟨m.id.ns, [.load .d top, .dropOperand]⟩] σ (.ok ()) σ₁ :=
      .plain hload (.plain hdrop .nil)
    exact ⟨σ', ((hargs.seq haddress).seq (.plain hdrop' .nil)).seq hr, h',
      hk.operands.trans (State.operands_setOperands _ _)⟩
  · cases hcs

end

end Machine

/-! ## Loads -/

namespace Wasm

/-- The number of bytes that the load of a 32-bit integer reads. -/
def LoadOp.width : LoadOp → Nat
  | .load8 .. => 1
  | .load16 .. => 2
  | _ => 4

/-- The 32-bit integer that a load makes of the bytes it has read: the number that they spell, or,
    if the load is a signed one, the number of so few bits that they spell. -/
def LoadOp.value : LoadOp → List UInt8 → Int32
  | .load8 _ .signed, bytes => Int32.ofInt ((littleEndian bytes : Int).bmod (2 ^ 8))
  | .load16 _ .signed, bytes => Int32.ofInt ((littleEndian bytes : Int).bmod (2 ^ 16))
  | _, bytes => Int32.ofNat (littleEndian bytes)

end Wasm

variable {op : LoadOp} {arg : MemArg} {width k n : Nat} {sign : Signedness} {bytes : List UInt8}

/-- The bytes of a load, all gathered, are its value. -/
theorem gathered_of_loadShape? (h : loadShape? op = some (width, sign)) :
    width = op.width ∧ 0 < width ∧ width ≤ 4 ∧
      ∀ bytes, bytes.length = width → gathered width sign bytes = op.value bytes := by
  have hfull : ∀ n : Int, Int32.ofInt (n.bmod (256 ^ 4)) = Int32.ofInt n := by
    intro n
    rw [Int32.ofInt_eq_iff_bmod_eq_toInt, Int32.toInt_ofInt]
    exact Int.bmod_bmod
  have h8 : 256 ^ 1 = 2 ^ 8 := by decide
  have h16 : 256 ^ 2 = 2 ^ 16 := by decide
  unfold loadShape? at h
  split at h
  · cases h
    refine ⟨rfl, by decide, by decide, fun bytes hlen => ?_⟩
    rw [gathered_signed hlen, hfull, Int32.ofInt_eq_ofNat]
    rfl
  · cases h
    refine ⟨rfl, by decide, by decide, fun bytes hlen => ?_⟩
    cases sign with
    | signed =>
      rw [gathered_signed hlen, h8]
      rfl
    | unsigned => exact gathered_unsigned
  · cases h
    refine ⟨rfl, by decide, by decide, fun bytes hlen => ?_⟩
    cases sign with
    | signed =>
      rw [gathered_signed hlen, h16]
      rfl
    | unsigned => exact gathered_unsigned
  · cases h

namespace Machine

variable {code : Code} {gs : List MemoryGroup} {m : PagedMemory} {B : Bytes} {σ σ' : State}
  {ns : String} {E : UInt32} {b : UInt8} {byte : Nat → UInt8} {x acc a : Int32} {low : List Nbt}
  {cs : List Command}

/-! ## Single bytes -/

/-- A byte that has been read signed is widened to what it counts for. -/
theorem runs_widen (ha : σ.regs .a = some b.toInt8.toInt32) :
    Runs code [⟨ns, if k + 1 = width ∧ sign = .signed then []
      else [(Command.addScore .a 256).ifIn .a (.atMost (-1))]⟩] σ (.ok ())
      (σ.setReg .a (byteValue width sign k b)) := by
  unfold byteValue
  by_cases hlast : k + 1 = width ∧ sign = .signed
  · rw [if_pos hlast, if_pos hlast, State.setReg_eq_self ha]
    exact .nil
  · rw [if_neg hlast, if_neg hlast, ofNat_eq_ite]
    have hg : σ.allows (.ifIn .a (.atMost (-1))) = some (decide (b.toInt8.toInt32 ≤ -1)) :=
      allows_ifIn ha
    by_cases hneg : b.toInt8.toInt32 ≤ -1
    · rw [if_pos hneg]
      rw [decide_eq_true hneg] at hg
      exact .guarded hg (.plain (steps_addScore ha) .nil)
    · rw [if_neg hneg, State.setReg_eq_self ha]
      rw [decide_eq_false hneg] at hg
      exact .blocked hg .nil

/-- What a byte counts for is added to what has been gathered, by its weight. -/
theorem runs_gather (code : Code) (ns : String) {ms : List PagedMemory} (h : Holding ms B σ)
    (hk : k < 4) (ha : σ.regs .a = some x) (hc : if k = 0 then acc = 0 else σ.regs .c = some acc) :
    ∃ σ', Runs code [⟨ns, if k = 0 then [.copy .c .a]
        else [.operation .a .mul (.const (byteWeight k)), .operation .c .add .a]⟩] σ (.ok ()) σ' ∧
      Holding ms B σ' ∧ KeepsBut [.a, .c] σ σ' ∧ σ'.regs .c = some (acc + x * byteWeight k) := by
  by_cases hk0 : k = 0
  · subst hk0
    rw [if_pos rfl] at hc
    have hcopy : Steps code.tags ns (.copy .c .a) σ [] _ := steps_copy ha
    refine ⟨_, .plain hcopy .nil, h.setReg rfl, (KeepsBut.refl _ σ).setReg (by decide), ?_⟩
    have hone : byteWeight 0 = 1 := rfl
    rw [hc, hone, Int32.mul_one, Int32.zero_add]
    rfl
  · rw [if_neg hk0] at hc
    have hseeded : byteWeight k ∈ Register.seeded := by interval_cases k <;> first | omega | decide
    have hmul : Steps code.tags ns (.operation .a .mul (.const (byteWeight k))) σ [] _ :=
      steps_operation (by decide) ha (h.consts _ hseeded)
    have hadd : Steps code.tags ns (.operation .c .add .a) _ [] _ :=
      steps_operation (by decide)
        (show (σ.setReg .a (x * byteWeight k)).regs .c = some acc from hc) rfl
    rw [if_neg hk0]
    exact ⟨_, .plain hmul (.plain hadd .nil), (h.setReg rfl).setReg rfl,
      ((KeepsBut.refl _ σ).setReg (by decide)).setReg (by decide), rfl⟩

/-- The registers that a load works with, its address apart. -/
def loadRegisters : List Register := .c :: getRegisters

section

variable (hcode : code.Pages gs) (hlib : code.HasLibrary) (hms : Paging.Marked (allMemories gs))
  (hm : m ∈ allMemories gs) (h0 : m.id.index = 0)

include hcode hlib hms hm h0

/-- A byte of a load is read and added to those before it. -/
theorem runs_loadByte (hlen : bytes.length < width) (hwidth : width ≤ 4)
    (h : Holding (allMemories gs) B σ) (haddress : σ.regs .address = some E.toInt32)
    (hc : bytes ≠ [] → σ.regs .c = some (gathered width sign bytes))
    (hb : B m.id (E + UInt32.ofNat bytes.length) = some b) :
    ∃ σ', Runs code [⟨m.id.ns, loadByte width sign bytes.length⟩] σ (.ok ()) σ' ∧
      Holding (allMemories gs) B σ' ∧ KeepsBut loadRegisters σ σ' ∧
      σ'.regs .c = some (gathered width sign (bytes ++ [b])) := by
  have hindex : Runs code [⟨m.id.ns, byteAddress bytes.length⟩] σ (.ok ()) _ :=
    runs_byteAddress haddress
  obtain ⟨σ₁, hget, h₁, hk₁, ha₁⟩ := runs_getByte hcode hlib hms hm
    (h.setReg (r := .index) rfl) rfl hb
  have hcall : Runs code [⟨m.id.ns, [.call (.memory 0 .get)]⟩] _ (.ok ()) σ₁ :=
    runs_callMemory hcode hm h0 (by simp [pagedSequences]) hget
  have hwiden : Runs code [⟨m.id.ns, _⟩] σ₁ (.ok ())
    (σ₁.setReg .a (byteValue width sign bytes.length b)) := runs_widen ha₁
  have hkeep : KeepsBut loadRegisters σ (σ₁.setReg .a (byteValue width sign bytes.length b)) :=
    (((KeepsBut.refl _ σ).setReg (by decide)).trans (hk₁.mono (by decide))).setReg (by decide)
  have hacc : if bytes.length = 0 then gathered width sign bytes = 0
      else (σ₁.setReg .a (byteValue width sign bytes.length b)).regs .c =
        some (gathered width sign bytes) := by
    split
    · rename_i hnil
      obtain rfl := List.length_eq_zero_iff.1 hnil
      rw [gathered, if_neg fun hw => absurd hw.1 (by simpa using hlen.ne)]
      rfl
    · rename_i hcons
      rw [← hc fun hnil => hcons (List.length_eq_zero_iff.2 hnil)]
      exact hk₁.regs .c (by decide)
  obtain ⟨σ', hgather, h', hk', hc'⟩ := runs_gather code m.id.ns (h₁.setReg rfl)
    (Nat.lt_of_lt_of_le hlen hwidth) rfl hacc
  refine ⟨σ', ((hindex.seq hcall).seq hwiden).seq hgather, h',
    hkeep.trans (hk'.mono (by decide)), ?_⟩
  rw [hc', gathered_append_singleton hlen]

/-- The first bytes of a load are read and gathered. -/
theorem runs_loadBytes (sign : Signedness) (hwidth : width ≤ 4) (hn : n ≤ width)
    (h : Holding (allMemories gs) B σ)
    (haddress : σ.regs .address = some E.toInt32)
    (hb : ∀ k < n, B m.id (E + UInt32.ofNat k) = some (byte k)) :
    ∃ σ', Runs code [⟨m.id.ns, (List.range n).flatMap (loadByte width sign)⟩] σ (.ok ()) σ' ∧
      Holding (allMemories gs) B σ' ∧ KeepsBut loadRegisters σ σ' ∧
      (n ≠ 0 → σ'.regs .c = some (gathered width sign ((List.range n).map byte))) := by
  induction n with
  | zero => exact ⟨σ, .nil, h, .refl _ σ, fun h => absurd rfl h⟩
  | succ n ih =>
    obtain ⟨σ₁, hr₁, h₁, hk₁, hc₁⟩ := ih (by omega) fun k hk => hb k (by omega)
    have hlen : ((List.range n).map byte).length = n := by simp
    have haddress₁ : σ₁.regs .address = some E.toInt32 := by
      rw [hk₁.regs .address (by decide), haddress]
    obtain ⟨σ', hr', h', hk', hc'⟩ := @runs_loadByte width sign ((List.range n).map byte) code gs m B
      σ₁ E (byte n) hcode hlib hms hm h0 (by omega) hwidth h₁ haddress₁
      (fun hne => hc₁ fun hzero => hne (by rw [hzero]; rfl)) (by rw [hlen]; exact hb n (by omega))
    rw [hlen] at hr'
    refine ⟨σ', ?_, h', hk₁.trans hk', fun _ => ?_⟩
    · rw [List.range_succ, List.flatMap_append, List.flatMap_singleton]
      exact hr₁.seq hr'
    · rw [hc', List.range_succ, List.map_append]
      rfl

/-! ## Loads -/

/-- **A load** puts the number that the bytes at its address spell in place of the address on the
    operand stack, and changes no byte. -/
theorem runs_lowerLoad (hcs : lowerLoad op arg = .ok cs) (h : Holding (allMemories gs) B σ)
    (hstack : σ.operands = some (entries (low ++ [.int a])))
    (hb : ∀ k < op.width, B m.id (a.toUInt32 + arg.offset + UInt32.ofNat k) = some (byte k)) :
    ∃ σ', Runs code [⟨m.id.ns, cs⟩] σ (.ok ()) σ' ∧ Holding (allMemories gs) B σ' ∧
      σ'.operands = some (entries (low ++ [.int (op.value ((List.range op.width).map byte))])) := by
  unfold lowerLoad at hcs
  split at hcs
  · rename_i width sign hshape
    cases hcs
    obtain ⟨rfl, hpos, hle, hvalue⟩ := gathered_of_loadShape? hshape
    have haddress : Runs code [⟨m.id.ns, loadAddress arg⟩] σ (.ok ()) _ :=
      runs_loadAddress arg hstack
    obtain ⟨σ₁, hr₁, h₁, hk₁, hc₁⟩ := runs_loadBytes hcode hlib hms hm h0 sign hle
      (Nat.le_refl _) (h.setReg (r := .address) rfl) rfl hb
    have hstack₁ : σ₁.operands = some (entries (low ++ [.int a])) := hk₁.operands.trans hstack
    have hsave : Steps code.tags m.id.ns (.save top .c) σ₁ [] _ :=
      steps_saveTop hstack₁ (hc₁ (by omega))
    rw [hvalue _ (by simp)] at hsave
    exact ⟨_, (haddress.seq hr₁).seq (.plain hsave .nil), h₁.setOperands,
      State.operands_setOperands _ _⟩
  · cases hcs

end

end Machine

end WasmPack
