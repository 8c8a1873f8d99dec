/-
  WasmPack.Proofs.Preparation.Modules

  Modules are prepared one after the other.

  Behind the library every module gives its memories their first pages and its
  globals their first values, and writes its data segments byte by byte through the
  window, while the memories of the modules that are still to come are in any state.
  The memories of those that have been prepared have the contents that are theirs,
  and whatever there was before leaves no trace.
-/
import WasmPack.Proofs.Access.Requests
import WasmPack.Proofs.Preparation.Globals
import WasmPack.Proofs.Preparation.Memories

namespace WasmPack

open Machine Compile
open Nbt (entries)

/-! ## Data segments -/

namespace Compile

open Wasm

variable {ns : String} {m : Module} {p : Program} {spaces : IndexSpaces} {segment : Data}
  {value : Int32} {pool pool' : Pool} {cs : List Command}

/-- The address at which a data segment begins. -/
def startOf (spaces : IndexSpaces) (segment : Data) : Nat :=
  ((constOf? (firstValues spaces.globals.toList) segment.offset).getD 0).toUInt32.toNat

/-- A data segment begins at a known address, and lies in the first pages of a memory that the
    module defines. -/
def LiesInside (spaces : IndexSpaces) (segment : Data) : Prop :=
  (constOf? (firstValues spaces.globals.toList) segment.offset).isSome ∧
    ∃ limits, spaces.memories[segment.memory.toNat]? = some (.defined limits) ∧
      startOf spaces segment + segment.init.length ≤ limits.min.toNat * pageSize

/-- The module can be prepared without running any of its functions: there is no start function, the
    first values of globals are known, and all data segments lie in the first pages of memories. -/
structure Preparable (m : Module) (spaces : IndexSpaces) : Prop where
  start : m.start = none
  values : HaveValues spaces.globals.toList
  few : spaces.globals.size ≤ 2 ^ 31
  data : ∀ segment ∈ m.data, LiesInside spaces segment

/-- The commands that write a data segment. -/
def segmentCommands (segment : Data) : List Command :=
  constCommands segment.offset ++ ([.load .address top, .dropOperand] ++
    segment.init.zipIdx.flatMap fun (byte, k) => writeByte segment.memory k byte)

theorem initData_eq (h : LiesInside spaces segment)
    (hinit : initData spaces segment pool = .ok (cs, pool')) : cs = segmentCommands segment := by
  obtain ⟨value, hvalue⟩ := Option.isSome_iff_exists.1 h.1
  obtain ⟨_, _, -, hinit⟩ := gen_bind_eq_ok.1 hinit
  obtain ⟨offset, _, hoffset, hinit⟩ := gen_bind_eq_ok.1 hinit
  obtain ⟨rfl, -⟩ := gen_pure_eq_ok.1 hinit
  rw [lowerConst_eq hvalue hoffset, segmentCommands, List.append_assoc]

/-- What prepares the module: first pages, then the values of globals, then the data segments. -/
theorem Compiled.init_eq (c : Compiled ns m p) (h : Preparable m c.spaces) : c.init =
    initHead c.spaces ++ ((c.spaces.globals.toList.zipIdx.flatMap fun (entry, i) =>
      firstCommands (UInt32.ofNat i) entry) ++ m.data.flatMap segmentCommands) := by
  obtain ⟨functions, _, -, hlowered⟩ := gen_bind_eq_ok.1 c.lowered
  obtain ⟨globals, _, hglobals, hlowered⟩ := gen_bind_eq_ok.1 hlowered
  obtain ⟨data, _, hdata, hlowered⟩ := gen_bind_eq_ok.1 hlowered
  obtain ⟨start, _, hstart, hlowered⟩ := gen_bind_eq_ok.1 hlowered
  obtain ⟨heq, -⟩ := gen_pure_eq_ok.1 hlowered
  have hmap : data.map id = m.data.map segmentCommands :=
    map_eq_of_mapM (fun segment hsegment _ _ _ hcs => initData_eq (h.data segment hsegment) hcs)
      hdata
  rw [List.map_id] at hmap
  rw [h.start] at hstart
  obtain ⟨rfl, -⟩ := gen_pure_eq_ok.1 hstart
  rw [(Prod.mk.inj heq).2, initGlobals_eq h.values hglobals, hmap, List.append_nil,
    List.append_assoc, List.flatMap_def]
  rfl

end Compile

namespace Contents

/-- A data segment of a module lies over the memory that it names. -/
def withSegment (ns : String) (spaces : IndexSpaces) (C : Contents) (segment : Wasm.Data) :
    Contents :=
  C.overlay ⟨ns, segment.memory.toNat⟩ (startOf spaces segment) segment.init

/-- What memories hold when one more part has been prepared. -/
def withPart (C : Contents) : Part → Contents
  | .library => C
  | .module ns m =>
    match IndexSpaces.ofModule m with
    | .ok spaces => m.data.foldl (withSegment ns spaces) (C.begun ns spaces.memories.toList)
    | .error _ => C

variable {C : Contents} {parts : List Part} {ns ns' : String} {spaces : IndexSpaces}
  {segments : List Wasm.Data} {i : Nat}

/-- Data segments change no number of pages. -/
theorem size_foldl_withSegment :
    (segments.foldl (withSegment ns spaces) C).size = C.size := by
  induction segments generalizing C with
  | nil => rfl
  | cons segment segments ih => exact ih

/-- Each memory is changed by the data segments that name it, and by nothing else. -/
theorem byte_foldl_withSegment : (segments.foldl (withSegment ns spaces) C).byte ⟨ns', i⟩ =
    (segments.filter fun segment => ns = ns' ∧ segment.memory.toNat = i).foldl
      (fun bytes segment => overlaid (startOf spaces segment) segment.init bytes)
      (C.byte ⟨ns', i⟩) := by
  induction segments generalizing C with
  | nil => rfl
  | cons segment segments ih =>
    rw [List.foldl_cons, ih, List.filter_cons]
    by_cases hid : ns = ns' ∧ segment.memory.toNat = i
    · obtain ⟨rfl, rfl⟩ := hid
      simp [withSegment, overlay]
    · have hne : (⟨ns', i⟩ : MemoryId) ≠ ⟨ns, segment.memory.toNat⟩ := by
        rintro heq
        cases heq
        exact hid ⟨rfl, rfl⟩
      have hkept : (C.withSegment ns spaces segment).byte ⟨ns', i⟩ = C.byte ⟨ns', i⟩ :=
        Function.update_of_ne hne ..
      rw [if_neg (by simpa using hid), hkept]

/-- Parts leave the memories of other modules alone. -/
theorem foldl_withPart_of_not_names (h : ¬Part.Names parts ns) :
    (parts.foldl withPart C).size ⟨ns, i⟩ = C.size ⟨ns, i⟩ ∧
      (parts.foldl withPart C).byte ⟨ns, i⟩ = C.byte ⟨ns, i⟩ := by
  induction parts generalizing C with
  | nil => exact ⟨rfl, rfl⟩
  | cons part parts ih =>
    have hrest : ¬Part.Names parts ns := fun ⟨m, hm⟩ => h ⟨m, List.mem_cons_of_mem _ hm⟩
    obtain ⟨hsize, hbyte⟩ := @ih (C.withPart part) hrest
    rw [List.foldl_cons, hsize, hbyte]
    cases part with
    | library => exact ⟨rfl, rfl⟩
    | module ns' m =>
      have hne : ns ≠ ns' := by
        rintro rfl
        exact h ⟨m, List.mem_cons_self⟩
      unfold withPart
      dsimp only
      split
      · rw [size_foldl_withSegment, byte_foldl_withSegment]
        simp [begun, hne, hne.symm]
      · exact ⟨rfl, rfl⟩

end Contents

/-- What memories hold when all parts have been prepared: zeros, with the data segments laid over
    them in their order. -/
def initialContents (parts : List Part) : Contents :=
  parts.foldl Contents.withPart ⟨fun _ => 0, fun _ _ => 0⟩

/-! ## Owners of the window -/

namespace Part

variable {parts done rest : List Part} {ps : List Program} {ns : String} {w : Window}
  {x : PagedMemory}

/-- The window belongs to a memory of one of the parts, or to none. -/
def Owns (parts : List Part) (w : Window) : Prop :=
  w.owner = "" ∨ ∃ x ∈ allMemories (groupsOf parts), w.owner = x.id.mark

theorem Owns.append (h : Owns done w) : Owns (done ++ rest) w :=
  h.imp_right fun ⟨x, hx, hmark⟩ => ⟨x, mem_allMemories_append.2 (.inl hx), hmark⟩

theorem names_append : Names (done ++ rest) ns ↔ Names done ns ∨ Names rest ns := by
  simp only [Names, List.mem_append, exists_or]

theorem names_singleton {m : Wasm.Module} {ns' : String} : Names [.module ns m] ns' ↔ ns' = ns := by
  constructor
  · rintro ⟨m', hm'⟩
    exact (Part.module.inj (List.mem_singleton.1 hm')).1
  · rintro rfl
    exact ⟨m, List.mem_cons_self⟩

/-- A memory of some parts belongs to a module among them. -/
theorem names_of_mem (h : x ∈ allMemories (groupsOf parts)) : Names parts x.id.ns :=
  (mem_allMemories_iff.1 h).1.names

theorem allMemories_append : allMemories (groupsOf (done ++ rest)) =
    allMemories (groupsOf done) ++ allMemories (groupsOf rest) := by
  unfold groupsOf allMemories
  rw [List.map_append, List.filter_append, List.flatMap_append]

/-- Modules in a list without repetition have namespaces of their own. -/
theorem not_names (hapart : Apart (done ++ rest)) (hnodup : (done ++ rest).Nodup)
    (h : Names done ns) : ¬Names rest ns := by
  rintro ⟨m', hm'⟩
  obtain ⟨m, hm⟩ := h
  obtain rfl := hapart ns m m' (List.mem_append_left _ hm) (List.mem_append_right _ hm')
  exact (List.nodup_append'.1 hnodup).2.2 hm hm'

/-- Where the window belongs to a memory of one module, it belongs to none of the others. -/
theorem Owns.ne_mark (h : Owns done w) (hparts : Orderly (done ++ rest))
    (hps : Part.Give (done ++ rest) ps) (hnodup : (done ++ rest).Nodup)
    (hx : x ∈ allMemories (groupsOf rest)) : w.owner ≠ x.id.mark := by
  intro howner
  rcases h with hempty | ⟨y, hy, hmark⟩
  · have hlength := congrArg (fun t => t.toList.length) (howner.symm.trans hempty)
    simp [MemoryId.mark] at hlength
  · have hid := hps.mark_inj (mem_allMemories_append.2 (.inl hy))
      (mem_allMemories_append.2 (.inr hx)) (hmark.symm.trans howner)
    exact not_names hparts.apart hnodup (names_of_mem hy) (hid ▸ names_of_mem hx)

end Part

/-! ## Stages -/

/-- What is settled while parts are being prepared: the window with the pages of the parts that
    have been, and the text that the window has last been checked against. -/
structure Stage where
  paging : Paging
  scratch : String

namespace Stage

variable {S S' : Stage} {parts done rest : List Part} {ps : List Program} {C : Contents}
  {σ τ : State} {ns : String} {m : Wasm.Module} {p : Program} {P : Paging} {q : Register}
  {rs : List Register}

/-- The state is at the stage where some parts have been prepared: what these need is there, all
    lists are empty, and the memories of other modules may be anything. -/
structure In (S : Stage) (done : List Part) (σ : State) : Prop where
  seeded : Seeded σ
  idle : Idle σ
  zeroPage : HasZeroPage σ
  lists : ∀ k ∈ listKeys, σ.cells sharedId k = some .emptyList
  scratch : σ.cells sharedId "tmp" = some (.text S.scratch)
  globals : ∀ ns m spaces, .module ns m ∈ done → IndexSpaces.ofModule m = .ok spaces →
    σ.cells (Storage.own.id ns) "globals" =
      some (entries ((slots (firstValues spaces.globals.toList)).map .int))
  there : ∀ ns, Part.Names done ns → (σ.cells (ownId ns) "mems").isSome
  paging : ∃ P : Paging, P.ShownBy σ ∧ S.paging.AgreesOn (Part.Names done) P

/-- From every state at one stage the functions lead to a state at another. -/
def Leads (S : Stage) (done : List Part) (code : Code) (fs : List Function) (S' : Stage)
    (done' : List Part) : Prop :=
  ∀ σ, S.In done σ → ∃ σ', Runs code fs σ (.ok ()) σ' ∧ S'.In done' σ'

namespace Leads

variable {S₁ S₂ : Stage} {done₁ done₂ : List Part} {code : Code} {cs ds : List Command}
  {fs gs : List Function}

/-- Commands one after the other. -/
theorem seq (h : S.Leads done code [⟨ns, cs⟩] S₁ done₁)
    (h' : S₁.Leads done₁ code [⟨ns, ds⟩] S₂ done₂) :
    S.Leads done code [⟨ns, cs ++ ds⟩] S₂ done₂ := by
  intro σ hσ
  obtain ⟨σ₁, hr₁, hσ₁⟩ := h σ hσ
  obtain ⟨σ₂, hr₂, hσ₂⟩ := h' σ₁ hσ₁
  exact ⟨σ₂, hr₁.seq hr₂, hσ₂⟩

/-- Functions one after the other. -/
theorem append (h : S.Leads done code fs S₁ done₁) (h' : S₁.Leads done₁ code gs S₂ done₂) :
    S.Leads done code (fs ++ gs) S₂ done₂ := by
  intro σ hσ
  obtain ⟨σ₁, hr₁, hσ₁⟩ := h σ hσ
  obtain ⟨σ₂, hr₂, hσ₂⟩ := h' σ₁ hσ₁
  exact ⟨σ₂, hr₁.append hr₂, hσ₂⟩

end Leads

/-- The memories of the parts that have been prepared have the contents, and none of the others
    owns the window. -/
def Ready (S : Stage) (done : List Part) (C : Contents) : Prop :=
  ∃ w, S.paging.Carries done C w ∧ Part.Owns done w

namespace In

theorem operands (h : S.In done σ) : σ.operands = some (entries []) :=
  h.lists "stack" (by decide)

theorem setReg (h : S.In done σ) (hq : q.isWork = true) (hne : q ≠ .brDepth) (v : Int32) :
    S.In done (σ.setReg q v) := by
  obtain ⟨P, hP, hagrees⟩ := h.paging
  refine { h with
    seeded := Seeded.ignores.setReg v h.seeded hq
    idle := ?_
    paging := ⟨P, hP.setReg, hagrees⟩ }
  rw [Idle, State.regs_setReg, if_neg hne.symm]
  exact h.idle

/-- What has to do with paging may change. -/
theorem of_keepsBut (h : S.In done σ) (hk : KeepsBut rs σ τ)
    (hrs : ∀ q ∈ rs, q.isWork = true ∧ q ≠ .brDepth)
    (hscratch : τ.cells sharedId "tmp" = some (.text S'.scratch))
    (hthere : ∀ ns, Part.Names done ns → (τ.cells (ownId ns) "mems").isSome)
    (hP : P.ShownBy τ) (hagrees : S'.paging.AgreesOn (Part.Names done) P) : S'.In done τ where
  seeded := consts_of_keepsBut (fun q hq => (hrs q hq).1) hk h.seeded
  idle := (hk.regs _ fun hmem => (hrs _ hmem).2 rfl).trans h.idle
  zeroPage := (hk.cells _ _ (by decide) (by decide) (by decide)).trans h.zeroPage
  lists k hlist := by
    have hne : k ≠ "mem" ∧ k ≠ "mems" ∧ k ≠ "tmp" := by
      revert k
      decide
    exact (hk.cells _ _ hne.1 hne.2.1 hne.2.2).trans (h.lists k hlist)
  scratch := hscratch
  globals ns m spaces hm hspaces :=
    (hk.cells _ _ (by decide) (by decide) (by decide)).trans (h.globals ns m spaces hm hspaces)
  there := hthere
  paging := ⟨P, hP, hagrees⟩

/-- When another module begins, its lists are emptied. -/
theorem emptied (h : S.In done σ) (hns : ¬Part.Names done ns) : S.In done (σ.emptied ns) := by
  have hcells : ∀ {id k}, id ≠ ownId ns ∨ k ≠ "mems" ∧ k ≠ "globals" →
      (σ.emptied ns).cells id k = σ.cells id k := by
    intro id k hne
    rw [State.emptied, State.cells_setCell, if_neg (by tauto), State.cells_setCell,
      if_neg (by tauto)]
  have hother : ∀ {ns'}, Part.Names done ns' → ownId ns' ≠ ownId ns := by
    intro ns' hns' heq
    exact hns (ownId_inj.1 heq ▸ hns')
  have hlist : ∀ k ∈ listKeys, k ≠ "mems" ∧ k ≠ "globals" := by decide
  obtain ⟨P, hP, hagrees⟩ := h.paging
  exact {
    seeded := h.seeded
    idle := h.idle
    zeroPage := (hcells (.inr (by decide))).trans h.zeroPage
    lists := fun k hk => (hcells (.inr (hlist k hk))).trans (h.lists k hk)
    scratch := (hcells (.inr (by decide))).trans h.scratch
    globals := fun ns' m spaces hm hspaces =>
      (hcells (.inl (hother ⟨m, hm⟩))).trans (h.globals ns' m spaces hm hspaces)
    there := fun ns' hns' => by
      rw [hcells (.inl (hother hns'))]
      exact h.there ns' hns'
    paging := ⟨P.setMems ns [], hP.setMems.setCell (by decide) (by decide),
      hagrees.window, fun ns' hns' => (hagrees.mems ns' hns').trans
        (Function.update_of_ne (fun heq : ns' = ns => hns (heq ▸ hns')) ..).symm⟩ }

/-- Once it has its memories and its globals, the module is one of those that are there. -/
theorem append_module (h : S.In done σ) (hns : ¬Part.Names done ns) {spaces : IndexSpaces}
    (hspaces : IndexSpaces.ofModule m = .ok spaces)
    (hthere : (σ.cells (ownId ns) "mems").isSome) (hP : P.ShownBy σ)
    (hagrees : S.paging.AgreesOn (Part.Names (done ++ [.module ns m])) P) :
    S.In (done ++ [.module ns m])
      (σ.setGlobals ns (slots (firstValues spaces.globals.toList))) where
  seeded := h.seeded
  idle := h.idle
  zeroPage := (State.cells_setCell_of_ne (by decide)).trans h.zeroPage
  lists k hk := by
    have hne : k ≠ "globals" := by
      revert k
      decide
    exact (State.cells_setCell_of_ne hne).trans (h.lists k hk)
  scratch := (State.cells_setCell_of_ne (by decide)).trans h.scratch
  globals ns' m' spaces' hm' hspaces' := by
    rcases List.mem_append.1 hm' with hm' | hm'
    · have hne : ownId ns' ≠ ownId ns := fun heq => hns ⟨m', ownId_inj.1 heq ▸ hm'⟩
      rw [State.setGlobals, State.cells_setCell, if_neg fun h => hne h.1]
      exact h.globals ns' m' spaces' hm' hspaces'
    · obtain ⟨rfl, rfl⟩ := Part.module.inj (List.mem_singleton.1 hm')
      obtain rfl := Except.ok.inj (hspaces'.symm.trans hspaces)
      exact State.cells_setCell_self
  there ns' hns' := by
    rw [State.setGlobals, State.cells_setCell_of_ne (by decide)]
    rcases Part.names_append.1 hns' with hns' | hns'
    · exact h.there ns' hns'
    · rw [Part.names_singleton.1 hns']
      exact hthere
  paging := ⟨P, hP.setCell (by decide) (by decide), hagrees⟩

end In

/-- What the library leaves behind: an empty window that belongs to no memory. -/
def first : Stage := ⟨⟨some Window.blank, fun _ => []⟩, ""⟩

theorem ready_first : first.Ready [] ⟨fun _ => 0, fun _ _ => 0⟩ := by
  refine ⟨Window.blank, ⟨⟨rfl, fun x hx => (nomatch hx), fun x hx => (nomatch hx)⟩,
    fun x hx => (nomatch hx), fun id max hdef => ?_, fun id max hdef => Nat.zero_le _⟩, .inl rfl⟩
  obtain ⟨m, _, _, hm, -⟩ := hdef
  cases hm

end Stage

/-! ## Writing data segments -/

namespace Machine

variable {S : Stage} {parts done rest : List Part} {ps : List Program} {C : Contents}
  {σ : State} {ns : String} {m : Wasm.Module} {p : Program} {id : MemoryId} {max E : UInt32}
  {k : Nat} {b : UInt8} {bs : List UInt8} {code : Code}

/-- Paging never takes away the list of memories that a module has. -/
theorem lasting_there : Lasting fun σ => ∀ ns, Part.Names done ns →
    (σ.cells (ownId ns) "mems").isSome where
  setReg _ h := h
  setWindow v h ns hns := by
    rw [State.cells_setCell_of_ne (by decide)]
    exact h ns hns
  setPages ns' v h ns hns := by
    rw [State.cells_setCell]
    split
    · rfl
    · exact h ns hns
  setScratch v h ns hns := by
    rw [State.cells_setCell_of_ne (by decide)]
    exact h ns hns

/-- Nor does it touch what the window has last been checked against, unless it checks it. -/
theorem unpaged_settled (scratch : String) : Unpaged fun σ =>
    σ.cells sharedId "tmp" = some (.text scratch) ∧
      ∀ ns, Part.Names done ns → (σ.cells (ownId ns) "mems").isSome where
  setReg _ h := h
  setWindow v h := ⟨(State.cells_setCell_of_ne (by decide)).trans h.1,
    lasting_there.setWindow v h.2⟩
  setPages ns v h := ⟨(State.cells_setCell_of_ne (by decide)).trans h.1,
    lasting_there.setPages ns v h.2⟩

/-- The number that a byte is put into `#a` as has the byte as its lowest one. -/
theorem toUInt8_toInt8_ofNat : (Int32.ofNat b.toNat).toInt8.toUInt8 = b := by
  simp

section Writing

variable (hparts : Orderly (done ++ rest)) (hps : Part.Give (done ++ rest) ps)
  (hnodup : (done ++ rest).Nodup)

include hparts hps hnodup

/-- A byte is written into a page that is loaded as if the memories that are still to come were not
    there, whatever these are. -/
theorem exists_carries_setByte {w : Window} {address : UInt32} {i : Int8}
    (hC : S.paging.Carries done C w) (howns : Part.Owns done w)
    (hx : ⟨id, max⟩ ∈ allMemories (groupsOf done)) (hpage : pageOf address < C.size id) :
    ∃ Q : Paging, (∃ w', (Q.setWindowByte (offsetOf address) i).Carries done
        (C.set id address i.toUInt8) w' ∧ Part.Owns done w') ∧
      ∀ P, S.paging.AgreesOn (Part.Names done) P → ∃ P', P.swapIn w
        (allMemories (groupsOf (done ++ rest))) ⟨id, max⟩ (pageOf address) = .ok P' ∧
          Q.AgreesOn (Part.Names done) P' := by
  have hmarked := hparts.marked hps
  have hsub : ∀ x ∈ allMemories (groupsOf done), x ∈ allMemories (groupsOf (done ++ rest)) :=
    fun x hx => Part.mem_allMemories_append.2 (.inl hx)
  have hown : Paging.Marked (allMemories (groupsOf done)) :=
    ⟨fun x hx y hy => hmarked.apart x (hsub x hx) y (hsub y hy),
      fun x hx => hmarked.fits x (hsub x hx)⟩
  have hother : ∀ x ∈ allMemories (groupsOf rest), w.owner ≠ x.id.mark := fun x hx =>
    howns.ne_mark hparts hps hnodup hx
  -- Of the memories that are asked to store the window, those still to come do not own it.
  obtain ⟨Q, data, hQ, -, hQC⟩ := hC.swapIn_loads hx hown hpage
  rw [← Paging.swapIn_append hother, ← Part.allMemories_append] at hQ
  refine ⟨Q, ⟨_, hQC.setWindowByte hown hx hpage, .inr ⟨_, hx, rfl⟩⟩, fun P hagrees => ?_⟩
  exact hagrees.swapIn (fun x hx => (Part.mem_allMemories_append.1 hx).imp Part.names_of_mem
    (hother x)) (Part.names_of_mem hx) hQ

/-- A byte of a data segment is written to the memory. -/
theorem exists_stage_writeByte (hdef : Part.Defines done id max)
    (hpage : pageOf (E + UInt32.ofNat k) < C.size id) (h : S.Ready done C) :
    ∃ S' : Stage, S'.Ready done (C.set id (E + UInt32.ofNat k) b) ∧
      ∀ σ, S.In done σ → σ.regs .address = some E.toInt32 → ∃ σ',
        Runs (ps.foldl Code.addProgram {}) [⟨id.ns, writeByte (UInt32.ofNat id.index) k b⟩] σ
          (.ok ()) σ' ∧ S'.In done σ' ∧ σ'.regs .address = some E.toInt32 := by
  obtain ⟨w, hC, howns⟩ := h
  have hne : max ≠ 0 := by
    rintro rfl
    exact Nat.not_lt_zero _ (Nat.lt_of_lt_of_le hpage (hC.size_le id 0 hdef))
  have hx : ⟨id, max⟩ ∈ allMemories (groupsOf done) := Part.mem_allMemories_iff.2 ⟨hdef, hne⟩
  have hall : ⟨id, max⟩ ∈ allMemories (groupsOf (done ++ rest)) :=
    Part.mem_allMemories_append.2 (.inl hx)
  obtain ⟨Q, hset, hswap⟩ := @exists_carries_setByte S _ _ _ _ _ _ hparts hps hnodup w
    (E + UInt32.ofNat k) (Int32.ofNat b.toNat).toInt8 hC howns hx hpage
  rw [toUInt8_toInt8_ofNat] at hset
  refine ⟨⟨Q.setWindowByte (offsetOf (E + UInt32.ofNat k)) (Int32.ofNat b.toNat).toInt8,
    (w.lastChecked (allMemories (groupsOf (done ++ rest))) ⟨id, max⟩
      (pageOf (E + UInt32.ofNat k))).mark⟩, hset, fun σ hσ hE => ?_⟩
  obtain ⟨P, hP, hagrees⟩ := hσ.paging
  obtain ⟨P', hP', hagrees'⟩ := hswap P hagrees
  -- The address and the byte are put into registers before `set` is called.
  let σ₁ := (σ.setReg .index (E + UInt32.ofNat k).toInt32).setReg .a (Int32.ofNat b.toNat)
  have hready : S.In done σ₁ := (hσ.setReg rfl (by decide) _).setReg rfl (by decide) _
  have haddressed : Addressed σ₁ (E + UInt32.ofNat k) :=
    ⟨hready.seeded _ (by decide), by simp [σ₁]⟩
  have hvalue : σ₁.regs .a = some (Int32.ofNat b.toNat) := by simp [σ₁]
  have hends := endsWith_set lasting_there hready.there (hparts.pages hps) (hparts.hasLibrary hps)
    hall hP.setReg.setReg (hagrees.window.symm.trans hC.sound.window) haddressed hvalue
  rw [hP'] at hends
  obtain ⟨σ', hr, hshown, hk, hthere, hscratch⟩ := hends
  have hfound := ((hparts.pages hps).hasMemory _ hall).set
  refine ⟨σ', (runs_byteAddress hE).seq (.plain steps_setScore (.call .call hfound hr .nil)),
    hready.of_keepsBut hk (by decide) hscratch hthere hshown hagrees'.setWindowByte, ?_⟩
  rw [hk.regs _ (by decide)]
  simpa [σ₁] using hE

/-- The bytes of a data segment are written one after the other. -/
theorem exists_stage_writeBytes (hdef : Part.Defines done id max)
    (hlen : E.toNat + k + bs.length ≤ C.size id * pageSize) (h : S.Ready done C) :
    ∃ S' : Stage, S'.Ready done (C.overlay id (E.toNat + k) bs) ∧
      ∀ σ, S.In done σ → σ.regs .address = some E.toInt32 → ∃ σ',
        Runs (ps.foldl Code.addProgram {}) [⟨id.ns, (bs.zipIdx k).flatMap fun (byte, k) =>
          writeByte (UInt32.ofNat id.index) k byte⟩] σ (.ok ()) σ' ∧ S'.In done σ' := by
  induction bs generalizing S C k with
  | nil => exact ⟨S, by rwa [Contents.overlay_nil], fun σ hσ _ => ⟨σ, .nil, hσ⟩⟩
  | cons b bs ih =>
    obtain ⟨w, hC, howns⟩ := h
    have hle := hC.size_le id max hdef
    have hmax : max.toNat ≤ 65536 := hdef.max_le
    have hroom : E.toNat + k + (bs.length + 1) ≤ C.size id * 65536 := hlen
    have hlt : E.toNat + k < 2 ^ 32 := by omega
    have haddress : E + UInt32.ofNat k = UInt32.ofNat (E.toNat + k) := by
      rw [UInt32.ofNat_add, UInt32.ofNat_toNat]
    have hpage : pageOf (E + UInt32.ofNat k) < C.size id := by
      rw [haddress, pageOf, UInt32.toNat_ofNat_of_lt' hlt]
      refine Nat.div_lt_of_lt_mul ?_
      show E.toNat + k < 65536 * C.size id
      omega
    obtain ⟨S₁, hready, hfirst⟩ := exists_stage_writeByte hparts hps hnodup (b := b) hdef hpage
      ⟨w, hC, howns⟩
    rw [haddress] at hready
    have hroom₁ : E.toNat + (k + 1) + bs.length ≤ C.size id * 65536 := by omega
    obtain ⟨S₂, hready₂, hrest⟩ :=
      ih (C := C.set id (UInt32.ofNat (E.toNat + k)) b) (k := k + 1) hroom₁ hready
    rw [← Nat.add_assoc, ← Contents.overlay_cons hlt] at hready₂
    refine ⟨S₂, hready₂, fun σ hσ hE => ?_⟩
    obtain ⟨σ₁, hr₁, hσ₁, hE₁⟩ := hfirst σ hσ hE
    obtain ⟨σ₂, hr₂, hσ₂⟩ := hrest σ₁ hσ₁ hE₁
    exact ⟨σ₂, hr₁.seq hr₂, hσ₂⟩

section Segments

variable {spaces : IndexSpaces} {segment : Wasm.Data} (hm : .module ns m ∈ done)
  (hspaces : IndexSpaces.ofModule m = .ok spaces) (hfew : spaces.globals.size ≤ 2 ^ 31)
  (hcode : (ps.foldl Code.addProgram {}).ReadsGlobals ns spaces.globals.toList)

include hm hspaces hfew hcode

/-- A data segment is laid over its memory. -/
theorem exists_stage_segment (hinside : LiesInside spaces segment)
    (hsize : ∀ limits, spaces.memories[segment.memory.toNat]? = some (.defined limits) →
      C.size ⟨ns, segment.memory.toNat⟩ = limits.min.toNat) (h : S.Ready done C) :
    ∃ S' : Stage, S'.Ready done (C.withSegment ns spaces segment) ∧
      S.Leads done (ps.foldl Code.addProgram {}) [⟨ns, segmentCommands segment⟩] S' done := by
  obtain ⟨hknown, limits, hi, hlen⟩ := hinside
  obtain ⟨value, hvalue⟩ := Option.isSome_iff_exists.1 hknown
  have hstart : startOf spaces segment = value.toUInt32.toNat := by
    rw [startOf, hvalue, Option.getD_some]
  have hdef : Part.Defines done ⟨ns, segment.memory.toNat⟩ (effectiveMax limits) :=
    ⟨m, spaces, limits, hm, hspaces, hi, rfl⟩
  obtain ⟨S', hready, hbytes⟩ := @exists_stage_writeBytes _ _ _ _ _ _ _ _ 0 segment.init hparts hps
    hnodup hdef (by rwa [hsize limits hi, Nat.add_zero, ← hstart]) h
  rw [Nat.add_zero, ← hstart] at hready
  refine ⟨S', hready, fun σ hσ => ?_⟩
  have haddress := runs_constInto (q := .address) hcode hσ.operands
    (hσ.globals ns m spaces hm hspaces) (by simpa using hfew) hvalue
  obtain ⟨σ', hr, hσ'⟩ := hbytes _ (hσ.setReg (q := .address) rfl (by decide) value) (by simp)
  simp only [UInt32.ofNat_toNat] at hr
  rw [segmentCommands, ← List.append_assoc]
  exact ⟨σ', haddress.seq hr, hσ'⟩

/-- The data segments of a module are laid over its memories in their order. -/
theorem exists_stage_segments {segments : List Wasm.Data}
    (hinside : ∀ segment ∈ segments, LiesInside spaces segment)
    (hsize : ∀ i limits, spaces.memories[i]? = some (.defined limits) →
      C.size ⟨ns, i⟩ = limits.min.toNat) (h : S.Ready done C) :
    ∃ S' : Stage, S'.Ready done (segments.foldl (Contents.withSegment ns spaces) C) ∧
      S.Leads done (ps.foldl Code.addProgram {}) [⟨ns, segments.flatMap segmentCommands⟩] S'
        done := by
  induction segments generalizing S C with
  | nil => exact ⟨S, h, fun σ hσ => ⟨σ, .nil, hσ⟩⟩
  | cons segment segments ih =>
    obtain ⟨S₁, hready₁, hfirst⟩ := exists_stage_segment hparts hps hnodup hm hspaces hfew hcode
      (hinside segment List.mem_cons_self) (hsize _) h
    obtain ⟨S₂, hready₂, hrest⟩ := ih (C := C.withSegment ns spaces segment)
      (fun s hs => hinside s (List.mem_cons_of_mem _ hs)) hsize hready₁
    exact ⟨S₂, hready₂, hfirst.seq hrest⟩

end Segments

end Writing

/-! ## Modules -/

/-- The globals that a module defines can be read. -/
theorem readsGlobals (hparts : Orderly parts) (hps : Part.Give parts ps)
    (hm : .module ns m ∈ parts) (c : Compiled ns m p) (hfew : c.spaces.globals.size ≤ 2 ^ 31) :
    (ps.foldl Code.addProgram {}).ReadsGlobals ns c.spaces.globals.toList := by
  intro index type init hget
  rw [Array.getElem?_toList] at hget
  exact hparts.global_function hps hm c hfew (entryAt_eq_ok.2 hget) List.mem_cons_self

section Preparing

variable (hparts : Orderly (done ++ .module ns m :: rest))
  (hps : Part.Give (done ++ .module ns m :: rest) ps)
  (hnodup : (done ++ .module ns m :: rest).Nodup) (c : Compiled ns m p)

include hparts hps hnodup

/-- A module gets its first pages and the values of its globals. -/
theorem exists_stage_begin (hvalues : HaveValues c.spaces.globals.toList)
    (hfew : c.spaces.globals.size ≤ 2 ^ 31) (h : S.Ready done C) :
    ∃ S' : Stage, S'.Ready (done ++ [.module ns m]) (C.begun ns c.spaces.memories.toList) ∧
      S.Leads done (ps.foldl Code.addProgram {}) [⟨ns, initHead c.spaces ++
        c.spaces.globals.toList.zipIdx.flatMap fun (entry, i) =>
          firstCommands (UInt32.ofNat i) entry⟩] S' (done ++ [.module ns m]) := by
  obtain ⟨w, hC, howns⟩ := h
  have hm : .module ns m ∈ done ++ .module ns m :: rest :=
    List.mem_append_right _ List.mem_cons_self
  have hns : ¬Part.Names done ns := fun hdone =>
    Part.not_names hparts.apart hnodup hdone ⟨m, List.mem_cons_self⟩
  have hother : ∀ x ∈ pagedMemories ns c.spaces.memories, w.owner ≠ x.id.mark := fun x hx =>
    howns.ne_mark hparts hps hnodup <| mem_allMemories_groupsOf.2
      ⟨_, List.mem_cons_self, by rwa [c.group_eq]⟩
  refine ⟨⟨S.paging.setMems ns (c.spaces.memories.toList.map firstPages), S.scratch⟩,
    ⟨w, hC.begin c hns hother, howns.append⟩, fun σ hσ => ?_⟩
  obtain ⟨P, hP, hagrees⟩ := hσ.paging
  have hempty := hσ.emptied hns
  have hthere : ∀ ns', Part.Names (done ++ [.module ns m]) ns' →
      ((σ.emptied ns).cells (ownId ns') "mems").isSome := by
    intro ns' hns'
    rcases Part.names_append.1 hns' with hns' | hns'
    · exact hempty.there ns' hns'
    · rw [Part.names_singleton.1 hns', State.emptied, State.cells_setCell_of_ne (by decide),
        State.cells_setCell_self]
      rfl
  obtain ⟨σ₁, hr₁, hshown, hk, hscratch₁, hthere₁⟩ := runs_initHead (unpaged_settled S.scratch)
    ⟨hempty.scratch, hthere⟩ (hparts.begins hps hm c) hP (hparts.few ns m c.spaces hm c.spacesOk)
    hσ.zeroPage
  have hnames : ∀ ns', Part.Names (done ++ [.module ns m]) ns' → Part.Names done ns' ∨ ns' = ns :=
    fun ns' hns' => (Part.names_append.1 hns').imp_right Part.names_singleton.1
  have hold : ∀ {ns'}, Part.Names done ns' → Part.Names (done ++ [.module ns m]) ns' := fun hns' =>
    Part.names_append.2 (.inl hns')
  have hall : (S.paging.setMems ns (c.spaces.memories.toList.map firstPages)).AgreesOn
      (Part.Names (done ++ [.module ns m]))
      (P.setMems ns (c.spaces.memories.toList.map firstPages)) := hagrees.setMems.mono hnames
  -- What has to do with paging is settled; the globals come into the list that has been emptied.
  have hσ₁ : Stage.In ⟨S.paging.setMems ns (c.spaces.memories.toList.map firstPages), S.scratch⟩
      done σ₁ :=
    hempty.of_keepsBut hk (by decide) hscratch₁ (fun ns' hns' => hthere₁ ns' (hold hns')) hshown
      (hall.mono fun ns' hns' => hold hns')
  have hglobals : σ₁.cells (Storage.own.id ns) "globals" = some (entries []) :=
    (hk.cells _ _ (by decide) (by decide) (by decide)).trans State.cells_setCell_self
  have hr₂ := runs_globals (readsGlobals hparts hps hm c hfew) hvalues (by simpa using hfew)
    hσ₁.operands hglobals
  exact ⟨_, hr₁.seq hr₂, hσ₁.append_module hns c.spacesOk
    (hthere₁ ns (Part.names_append.2 (.inr (Part.names_singleton.2 rfl)))) hshown hall⟩

/-- **A module is prepared**: its memories hold zeros with its data segments over them, and its
    globals have their first values. -/
theorem exists_stage_module (hplain : Preparable m c.spaces) (h : S.Ready done C) :
    ∃ S' : Stage, S'.Ready (done ++ [.module ns m]) (C.withPart (.module ns m)) ∧
      S.Leads done (ps.foldl Code.addProgram {}) [⟨ns, c.init⟩] S' (done ++ [.module ns m]) := by
  have hm : .module ns m ∈ done ++ .module ns m :: rest :=
    List.mem_append_right _ List.mem_cons_self
  have hcode := readsGlobals hparts hps hm c hplain.few
  obtain ⟨S₁, hready₁, hbegin⟩ := exists_stage_begin hparts hps hnodup c hplain.values hplain.few h
  rw [List.append_cons] at hparts hps hnodup
  obtain ⟨S₂, hready₂, hdata⟩ := exists_stage_segments hparts hps hnodup
    (List.mem_append_right done List.mem_cons_self) c.spacesOk hplain.few hcode hplain.data
    (fun i limits hi => by simp [Contents.begun, hi, MemoryEntry.minPages]) hready₁
  refine ⟨S₂, ?_, ?_⟩
  · simp only [Contents.withPart, c.spacesOk]
    exact hready₂
  · rw [c.init_eq hplain, ← List.append_assoc]
    exact hbegin.seq hdata

end Preparing

/-! ## All parts -/

theorem mem_append_library : .module ns m ∈ done ++ [.library] ↔ .module ns m ∈ done := by
  simp only [List.mem_append, List.mem_singleton, reduceCtorEq, or_false]

/-- The library has no memories and no globals. -/
theorem ready_append_library (h : S.Ready done C) : S.Ready (done ++ [.library]) C := by
  obtain ⟨w, hC, howns⟩ := h
  have hmemories : allMemories (groupsOf (done ++ [.library])) = allMemories (groupsOf done) := by
    rw [Part.allMemories_append]
    exact List.append_nil _
  have hdefines : ∀ id max, Part.Defines (done ++ [.library]) id max ↔ Part.Defines done id max :=
    fun id max => by simp only [Part.Defines, mem_append_library]
  refine ⟨w, ⟨hmemories ▸ hC.sound, hmemories ▸ hC.bytes, fun id max hdef => ?_,
    fun id max hdef => ?_⟩, howns.append⟩
  · exact hC.length id max ((hdefines id max).1 hdef)
  · exact hC.size_le id max ((hdefines id max).1 hdef)

theorem in_append_library (h : S.In done σ) : S.In (done ++ [.library]) σ := by
  have hnames : ∀ ns, Part.Names (done ++ [.library]) ns ↔ Part.Names done ns := fun ns => by
    simp only [Part.Names, mem_append_library]
  obtain ⟨P, hP, hagrees⟩ := h.paging
  exact { h with
    globals := fun ns m spaces hm => h.globals ns m spaces (mem_append_library.1 hm)
    there := fun ns hns => h.there ns ((hnames ns).1 hns)
    paging := ⟨P, hP, hagrees.mono fun ns hns => (hnames ns).1 hns⟩ }

/-- **Parts are prepared** one after the other. -/
theorem exists_stage_parts (hparts : Orderly (done ++ rest)) (hps : Part.Give (done ++ rest) ps)
    (hnodup : (done ++ rest).Nodup) (hfree : ∀ ns m, .module ns m ∈ rest → NoInitExport m)
    (hplain : ∀ ns m spaces, .module ns m ∈ rest → IndexSpaces.ofModule m = .ok spaces →
      Preparable m spaces) (h : S.Ready done C) :
    ∃ fs, (ps.foldl Code.addProgram {}).functionsOf (rest.filterMap Part.initName?) = .ok fs ∧
      ∃ S' : Stage, S'.Ready (done ++ rest) (rest.foldl Contents.withPart C) ∧
        S.Leads done (ps.foldl Code.addProgram {}) fs S' (done ++ rest) := by
  -- One part goes from the rest to those that are done; all of them stay loaded.
  induction rest generalizing S done C with
  | nil =>
    rw [List.append_nil]
    exact ⟨[], rfl, S, h, fun σ hσ => ⟨σ, .done, hσ⟩⟩
  | cons part rest ih =>
    have hfree' : ∀ ns m, .module ns m ∈ rest → NoInitExport m := fun ns m hm =>
      hfree ns m (List.mem_cons_of_mem _ hm)
    have hplain' : ∀ ns m spaces, .module ns m ∈ rest → IndexSpaces.ofModule m = .ok spaces →
        Preparable m spaces := fun ns m spaces hm => hplain ns m spaces (List.mem_cons_of_mem _ hm)
    cases part with
    | library =>
      rw [List.append_cons] at hparts hps hnodup ⊢
      obtain ⟨fs, hfs, S', hready, hleads⟩ := ih hparts hps hnodup hfree' hplain'
        (ready_append_library h)
      exact ⟨fs, hfs, S', hready, fun σ hσ => hleads σ (in_append_library hσ)⟩
    | module ns m =>
      have hm : .module ns m ∈ done ++ .module ns m :: rest :=
        List.mem_append_right _ List.mem_cons_self
      obtain ⟨p, -, hp⟩ := hps.exists_program hm
      obtain ⟨c⟩ := Compile.exists_compiled hp
      obtain ⟨S₁, hready₁, hfirst⟩ := exists_stage_module hparts hps hnodup c
        (hplain ns m c.spaces List.mem_cons_self c.spacesOk) h
      have hinit := hparts.init_function hps hm c (hfree ns m List.mem_cons_self)
      rw [List.append_cons] at hparts hps hnodup ⊢
      obtain ⟨fs, hfs, S₂, hready₂, hrest⟩ := ih hparts hps hnodup hfree' hplain' hready₁
      have hone : (ps.foldl Code.addProgram {}).functionsOf [Symbol.init.qualifiedName ns] =
          .ok [⟨ns, c.init⟩] := by
        rw [Code.functionsOf, hinit]
        rfl
      exact ⟨_, functionsOf_append hone hfs, S₂, hready₂, hfirst.append hrest⟩

/-! ## The library -/

/-- The library leads to the first stage, whatever there was before. -/
theorem exists_in_first (hσ : Tidy σ) : ∃ σ',
    Runs code [⟨sharedNamespace, Library.loadCommands⟩] σ (.ok ()) σ' ∧ Stage.first.In [] σ' := by
  obtain ⟨σ', hr, hprepared, -, hcells⟩ := @runs_load code σ
  obtain ⟨P, hP⟩ := hσ.paging
  refine ⟨σ', hr, ?_⟩
  exact {
    seeded := hprepared.consts
    idle := hprepared.brDepth
    zeroPage := hprepared.zeroPage
    lists := hprepared.lists
    scratch := hprepared.scratch
    globals := fun ns m spaces hm => (nomatch hm)
    there := fun ns ⟨m, hm⟩ => (nomatch hm)
    paging := ⟨⟨some Window.blank, P.mems⟩, ⟨hprepared.window, fun ns => by
      rw [hcells _ _ (.inr (by decide))]
      exact hP.mems ns⟩, rfl, fun ns ⟨m, hm⟩ => (nomatch hm)⟩ }

end Machine

end WasmPack
