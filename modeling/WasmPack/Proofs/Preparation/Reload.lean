/-
  WasmPack.Proofs.Preparation.Reload

  Preparing again.

  A request to prepare leads every machine on which the same parts are loaded to
  the same storages, whatever has been run on it before and wherever that came to
  an end.  From then on memories answer as independent byte memories do, which
  begin with zeros and the data segments over them.
-/
import WasmPack.Proofs.Preparation.Modules

namespace WasmPack

open Machine Compile
open Nbt (entries)

namespace Machine

variable {parts : List Part} {ps : List Program} {σ τ : State} {s : Machine} {S : Stage}
  {C : Contents} {xs : List Nbt}

/-! ## What preparing comes to -/

/-- What preparing parts comes to: all lists are empty, globals have their first values, and the
    memories hold zeros with the data segments over them. -/
structure Pristine (parts : List Part) (σ : State) : Prop where
  idle : Idle σ
  frames : σ.frames = some (entries [])
  conditions : σ.conditions = some (entries [])
  globals : ∀ ns m spaces, .module ns m ∈ parts → IndexSpaces.ofModule m = .ok spaces →
    σ.cells (Storage.own.id ns) "globals" =
      some (entries ((slots (firstValues spaces.globals.toList)).map .int))
  serving : Serving parts (initialContents parts) [] σ

/-- What is to be prepared can be, beside the library and without running any function. -/
structure Ordered (parts : List Part) : Prop extends Orderly parts where
  nodup : parts.Nodup
  free_init : ∀ ns m, .module ns m ∈ parts → NoInitExport m
  preparable : ∀ ns m spaces, .module ns m ∈ parts → IndexSpaces.ofModule m = .ok spaces →
    Preparable m spaces

/-- Each memory begins with its pages of zeros and the data segments of its module that name it laid
    over them in their order, whatever else is loaded. -/
theorem initialContents_of_mem {ns : String} {m : Wasm.Module} {spaces : IndexSpaces}
    {i : Nat} (h : Ordered parts) (hm : .module ns m ∈ parts)
    (hspaces : IndexSpaces.ofModule m = .ok spaces) :
    (initialContents parts).size ⟨ns, i⟩ =
        ((spaces.memories[i]?).map (·.minPages)).getD 0 ∧
      (initialContents parts).byte ⟨ns, i⟩ =
        (m.data.filter (·.memory.toNat = i)).foldl
          (fun bytes segment => Contents.overlaid (startOf spaces segment) segment.init bytes)
          fun _ => 0 := by
  obtain ⟨front, back, rfl⟩ := List.append_of_mem hm
  have hapart := h.apart
  have hnodup := h.nodup
  rw [List.append_cons] at hapart hnodup
  have hback : ¬Part.Names back ns :=
    Part.not_names hapart hnodup ⟨m, List.mem_append_right _ List.mem_cons_self⟩
  unfold initialContents
  rw [List.foldl_append, List.foldl_cons]
  obtain ⟨hsize, hbyte⟩ := Contents.foldl_withPart_of_not_names (i := i) hback
  rw [hsize, hbyte]
  simp only [Contents.withPart, hspaces, Contents.size_foldl_withSegment,
    Contents.byte_foldl_withSegment, Contents.begun, if_pos, true_and]
  simp

/-! ## The load tag -/

/-- The library comes once. -/
theorem countP_isLibrary (hlib : .library ∈ parts) (hnodup : parts.Nodup) :
    parts.countP Part.isLibrary = 1 := by
  obtain ⟨front, back, rfl⟩ := List.append_of_mem hlib
  obtain ⟨hnone, -⟩ := List.nodup_cons.1 (List.nodup_middle.1 hnodup)
  have hzero : (front ++ back).countP Part.isLibrary = 0 := by
    refine List.countP_eq_zero.2 fun part hpart hl => ?_
    cases part with
    | library => exact hnone hpart
    | module ns m => cases hl
  rw [List.countP_append] at hzero
  rw [List.countP_append, List.countP_cons_of_pos rfl]
  omega

/-- The load tag prepares all parts, and leads to one stage whatever there was before. -/
theorem exists_stage (h : Ordered parts) (hps : Part.Give parts ps) : ∃ S : Stage,
    S.Ready parts (initialContents parts) ∧ ∀ σ, Tidy σ → ∃ σ',
      Runs (ps.foldl Code.addProgram {}) [⟨"minecraft", [.callTag .load]⟩] σ (.ok ()) σ' ∧
        S.In parts σ' := by
  obtain ⟨fs, hfs, S, hready, hleads⟩ := @exists_stage_parts _ [] parts ps _ h.toOrderly hps h.nodup
    h.free_init h.preparable Stage.ready_first
  refine ⟨S, hready, fun σ hσ => ?_⟩
  obtain ⟨σ₁, hr₁, hσ₁⟩ := @exists_in_first _ (ps.foldl Code.addProgram {}) hσ
  obtain ⟨σ₂, hr₂, hσ₂⟩ := hleads σ₁ hσ₁
  -- The library's routine comes first in the tag, whatever the order of the parts.
  have hmembers : (ps.foldl Code.addProgram {}).tags.members .load =
      [Part.loadName] ++ parts.filterMap Part.initName? := by
    have hload := hps.load_members {}
    rw [countP_isLibrary h.library h.nodup] at hload
    exact hload
  have hlib : (ps.foldl Code.addProgram {}).functionsOf [Part.loadName] =
      .ok [⟨sharedNamespace, Library.loadCommands⟩] := by
    rw [Code.functionsOf, Part.loadName,
      (h.toOrderly.hasLibrary hps).routine .load sharedNamespace]
    rfl
  have hentered := functionsOf_append hlib hfs
  rw [← hmembers] at hentered
  have hne : (ps.foldl Code.addProgram {}).tags.members .load ≠ [] := fun hnil =>
    List.cons_ne_nil _ _ (hmembers.symm.trans hnil)
  exact ⟨σ₂, .step (.callTag hne) hentered (hr₁.append (hr₂.append .nil)), hσ₂⟩

end Machine

/-! ## One stage -/

namespace Stage.In

variable {parts : List Part} {ps : List Program} {σ τ : State} {S : Stage}

/-- The stage of all parts is such a state. -/
theorem pristine (hσ : S.In parts σ) (h : S.Ready parts (initialContents parts)) :
    Pristine parts σ := by
  obtain ⟨w, hC, -⟩ := h
  obtain ⟨P, hP, hagrees⟩ := hσ.paging
  exact ⟨hσ.idle, hσ.lists "frames" (by decide), hσ.lists "conditions" (by decide), hσ.globals,
    hσ.seeded, hσ.zeroPage, hσ.operands, P, w, hP, hC.of_agreesOn hagrees⟩

/-- The storages hold the same values in all states in which all parts have been prepared. -/
theorem cells_eq (hps : Part.Give parts ps) (hσ : S.In parts σ) (hτ : S.In parts τ)
    (hσhome : AtHome (Part.Names parts) σ) (hτhome : AtHome (Part.Names parts) τ) :
    σ.cells = τ.cells := by
  obtain ⟨P, hP, hPS⟩ := hσ.paging
  obtain ⟨Q, hQ, hQS⟩ := hτ.paging
  funext id k
  -- Where a module or the library keeps something the stage says what it is; elsewhere a home holds
  -- nothing.
  by_cases hplace : IsPlace (Part.Names parts) id k
  · rcases hplace with ⟨rfl, hk⟩ | ⟨⟨ns, hns, rfl⟩, hk⟩
    · by_cases hlist : k ∈ listKeys
      · rw [hσ.lists k hlist, hτ.lists k hlist]
      · have hrest : k = "tmp" ∨ k = "mem" ∨ k = "zero_page" := by
          revert k
          decide
        rcases hrest with rfl | rfl | rfl
        · rw [hσ.scratch, hτ.scratch]
        · rw [hP.window, hQ.window, ← hPS.window, hQS.window]
        · exact hσ.zeroPage.trans hτ.zeroPage.symm
    · obtain ⟨m, hm⟩ := hns
      have hrest : k = "mems" ∨ k = "globals" := by simpa [Storage.keys] using hk
      rcases hrest with rfl | rfl
      · have hmems : ∀ {υ : State} {R : Paging}, S.In parts υ → R.ShownBy υ →
            S.paging.AgreesOn (Part.Names parts) R →
            υ.cells (ownId ns) "mems" = some (memsNbt (S.paging.mems ns)) := by
          intro υ R hυ hR hagrees
          rw [hagrees.mems ns ⟨m, hm⟩]
          refine (hR.mems ns).resolve_right fun hnone => ?_
          have hthere := hυ.there ns ⟨m, hm⟩
          rw [hnone.1] at hthere
          cases hthere
        rw [hmems hσ hP hPS, hmems hτ hQ hQS]
      · obtain ⟨p, -, hp⟩ := hps.exists_program hm
        obtain ⟨c⟩ := Compile.exists_compiled hp
        exact (hσ.globals ns m c.spaces hm c.spacesOk).trans
          (hτ.globals ns m c.spaces hm c.spacesOk).symm
  · rw [hσhome id k hplace, hτhome id k hplace]

end Stage.In

/-! ## Reloading -/

namespace Machine

variable {parts : List Part} {ps : List Program} {σ : State} {s : Machine} {S : Stage}
  {C : Contents} {xs : List Nbt}

/-- With a limit that is high enough, a request to prepare leads every machine to that stage. -/
theorem exists_in_reload (hruns : ∀ σ, Tidy σ → ∃ σ',
      Runs (ps.foldl Code.addProgram {}) [⟨"minecraft", [.callTag .load]⟩] σ (.ok ()) σ' ∧
        S.In parts σ') (hps : Part.Give parts ps) (hs : Reached parts s) :
    ∃ n σ, S.In parts σ ∧ AtHome (Part.Names parts) σ ∧ ∀ limit, n ≤ limit → ∃ s',
      reload { s with gasLimit := limit } = .ok () s' ∧ s'.code = ps.foldl Code.addProgram {} ∧
        s'.gasLimit = limit ∧ s'.store.Models σ := by
  obtain ⟨qs, hqs, hcode⟩ := hs.exists_programs
  obtain rfl := hqs.unique hps
  obtain ⟨σ₀, hσ₀, htidy⟩ := hs.tidy
  obtain ⟨σ, hr, hσ⟩ := hruns σ₀ htidy
  obtain ⟨n, hn⟩ := hr.run_of_le
  have hreload : ∀ limit, n ≤ limit → ∃ store, store.Models σ ∧
      reload { s with gasLimit := limit } =
        .ok () { s with gasLimit := limit, store, gas := n } := by
    intro limit hle
    obtain ⟨store, hrun, hstore⟩ := hn s.store hσ₀ limit hle
    rw [← hcode] at hrun
    exact ⟨store, hstore, runFunction_eq_ok hrun⟩
  -- The run ends in one state under every limit, and that under the least of them is reached.
  obtain ⟨store, hstore, hok⟩ := hreload n (Nat.le_refl n)
  have hreached := (hs.limited n).reload
  unfold asked at hreached
  rw [hok] at hreached
  obtain ⟨τ, hτ, hhome⟩ := hreached.atHome
  obtain rfl := hτ.unique hstore
  refine ⟨n, τ, hσ, hhome, fun limit hle => ?_⟩
  obtain ⟨store, hstore, hok⟩ := hreload limit hle
  exact ⟨_, hok, hcode, rfl, hstore⟩

/-- **Preparing restores everything**: on every machine that a host can bring about with the parts
    loaded, a request to prepare comes to its end if the limit is high enough.  All lists are empty
    then, globals have their first values, memories hold zeros with the data segments over them, and
    the storages are the same as on any other of these machines. -/
theorem reload_restores (h : Ordered parts) : ∃ storages : String → String → Option Nbt,
    ∀ s, Reached parts s → ∃ n, ∀ limit, n ≤ limit → ∃ s' σ,
      reload { s with gasLimit := limit } = .ok () s' ∧ s'.store.Models σ ∧ Pristine parts σ ∧
        σ.cells = storages := by
  by_cases hex : ∃ s, Reached parts s
  · obtain ⟨s₀, hs₀⟩ := hex
    -- The stage is one for all of these machines: it is made from the parts alone.
    obtain ⟨ps, hps, -⟩ := hs₀.exists_programs
    obtain ⟨S, hready, hruns⟩ := exists_stage h hps
    obtain ⟨-, σ₀, hσ₀, hhome₀, -⟩ := exists_in_reload hruns hps hs₀
    refine ⟨σ₀.cells, fun s hs => ?_⟩
    obtain ⟨n, σ, hσ, hhome, hreload⟩ := exists_in_reload hruns hps hs
    refine ⟨n, fun limit hle => ?_⟩
    obtain ⟨s', hs', -, -, hmodels⟩ := hreload limit hle
    exact ⟨s', σ, hs', hmodels, hσ.pristine hready, hσ.cells_eq hps hσ₀ hhome hhome₀⟩
  · exact ⟨fun _ _ => none, fun s hs => absurd ⟨s, hs⟩ hex⟩

/-- A module with a memory of one page, two globals of which the second has the value of the first,
    and a data segment that begins where the second says. -/
def filledModule : Wasm.Module where
  memories := [⟨1, some 2⟩]
  globals := [⟨⟨.i32, false⟩, [.i32Const 5]⟩, ⟨⟨.i32, false⟩, [.globalGet 0]⟩]
  data := [⟨0, [.globalGet 1], [7, 9]⟩]

/-- The module in two namespaces, beside the library. -/
def filledParts : List Part :=
  [.module "left" filledModule, .library, .module "right" filledModule]

theorem eq_filledModule {ns : String} {m : Wasm.Module} (h : .module ns m ∈ filledParts) :
    m = filledModule := by
  simp only [filledParts, List.mem_cons, List.not_mem_nil, or_false, reduceCtorEq, false_or,
    Part.module.injEq] at h
  rcases h with h | h <;> exact h.2

theorem preparable_filledModule : Preparable filledModule (IndexSpaces.declared filledModule) where
  start := rfl
  values i type init hi := by
    have hlt : i < 2 := (List.getElem?_eq_some_iff.1 hi).1
    interval_cases i
    · cases hi
      exact ⟨5, rfl⟩
    · cases hi
      exact ⟨5, rfl⟩
  few := by decide
  data segment hsegment := by
    obtain rfl := List.mem_singleton.1 hsegment
    exact ⟨rfl, ⟨1, some 2⟩, rfl, by decide⟩

theorem ordered_filledParts : Ordered filledParts where
  library := by simp [filledParts]
  apart ns m m' hm hm' := (eq_filledModule hm).trans (eq_filledModule hm').symm
  free ns m hm := by
    rw [eq_filledModule hm]
    exact fun e he => nomatch he
  few ns m spaces hm hspaces := by
    rw [eq_filledModule hm] at hspaces
    rw [(ofModule_eq_ok.1 hspaces).2]
    decide
  nodup := by simp [filledParts]
  free_init ns m hm := by
    rw [eq_filledModule hm]
    exact fun e he => nomatch he
  preparable ns m spaces hm hspaces := by
    rw [eq_filledModule hm] at hspaces ⊢
    rw [(ofModule_eq_ok.1 hspaces).2]
    exact preparable_filledModule

/-- The parts can be loaded. -/
theorem exists_reached_filledParts : ∃ s, Reached filledParts s := by
  obtain ⟨p, hp⟩ : ∃ p, (Part.module "left" filledModule).program = .ok p := ⟨_, rfl⟩
  obtain ⟨q, hq⟩ : ∃ q, (Part.module "right" filledModule).program = .ok q := ⟨_, rfl⟩
  have hlibrary : Part.library.program = .ok Library.program := rfl
  exact ⟨_, (((Reached.fresh 0).load hp).load hlibrary).load hq⟩

/-- Both globals of each module have the same value, wherever the parts have been loaded. -/
theorem reload_restores_filledParts : ∃ storages s n s', Reached filledParts s ∧
    reload { s with gasLimit := n } = .ok () s' ∧
    Holds (fun σ => Pristine filledParts σ ∧ σ.cells = storages) s'.store ∧
    storages (Storage.own.id "right") "globals" = some (entries [.int 5, .int 5]) := by
  obtain ⟨s, hs⟩ := exists_reached_filledParts
  obtain ⟨storages, hreload⟩ := reload_restores ordered_filledParts
  obtain ⟨n, hn⟩ := hreload s hs
  obtain ⟨s', σ, hs', hσ, hpristine, hcells⟩ := hn n (Nat.le_refl n)
  have hspaces : IndexSpaces.ofModule filledModule = .ok (IndexSpaces.declared filledModule) := rfl
  have hglobals := hpristine.globals "right" filledModule _ (by simp [filledParts]) hspaces
  rw [hcells] at hglobals
  exact ⟨storages, s, n, s', hs, hs', ⟨σ, hσ, hpristine, hcells⟩, hglobals⟩

/-- **Memories answer as independent byte memories** once they have been prepared: whatever a host
    demands of them, one demand after the other and under any names, and however many memories use
    the window in between. -/
theorem memories_answer (h : Ordered parts) (hs : Reached parts s) (es : List Exchange)
    (hes : ∀ e ∈ es, e.Valid parts) : ∃ n, ∀ limit, n ≤ limit → ∃ s',
      reload { s with gasLimit := limit } = .ok () s' ∧
        Follows parts s' (initialContents parts) [] es := by
  obtain ⟨ps, hps, -⟩ := hs.exists_programs
  obtain ⟨S, hready, hruns⟩ := exists_stage h hps
  obtain ⟨n₁, σ, hσ, -, hreload⟩ := exists_in_reload hruns hps hs
  obtain ⟨n₂, hfollows⟩ := (hσ.pristine hready).serving.exists_follows h.toOrderly hps es hes
  refine ⟨max n₁ n₂, fun limit hle => ?_⟩
  obtain ⟨s', hs', hcode, hlimit, hmodels⟩ := hreload limit (by omega)
  exact ⟨s', hs', hfollows s' hcode hmodels (by omega)⟩

/-- A host writes a byte into the memory of one module, and reads at the same address in both. -/
def filledExchanges : List Exchange :=
  let left : PagedMemory := ⟨⟨"left", 0⟩, 2⟩
  let right : PagedMemory := ⟨⟨"right", 0⟩, 2⟩
  [⟨left, .set 6 (-3), left.operation .set⟩, ⟨right, .get 6, right.operation .get⟩,
    ⟨left, .get 6, left.operation .get⟩]

/-- The byte is read where it was written, and that of the data segment in the other memory. -/
theorem memories_answer_filledParts : ∃ s n s', Reached filledParts s ∧
    reload { s with gasLimit := n } = .ok () s' ∧
    Follows filledParts s' (initialContents filledParts) [] filledExchanges := by
  obtain ⟨s, hs⟩ := exists_reached_filledParts
  have hdefines : ∀ ns ∈ ["left", "right"], Part.Defines filledParts ⟨ns, 0⟩ 2 := by
    intro ns hns
    refine ⟨filledModule, IndexSpaces.declared filledModule, ⟨1, some 2⟩, ?_, rfl, rfl, rfl⟩
    simp only [List.mem_cons, List.not_mem_nil, or_false] at hns
    rcases hns with rfl | rfl <;> simp [filledParts]
  have hvalid : ∀ e ∈ filledExchanges, e.Valid filledParts := by
    intro e he
    simp only [filledExchanges, List.mem_cons, List.not_mem_nil, or_false] at he
    rcases he with rfl | rfl | rfl <;> exact ⟨hdefines _ (by simp), .own⟩
  obtain ⟨n, hn⟩ := memories_answer ordered_filledParts hs filledExchanges hvalid
  obtain ⟨s', hs', hfollows⟩ := hn n (Nat.le_refl n)
  exact ⟨s, n, s', hs, hs', hfollows⟩

example : (initialContents filledParts).bytes ⟨"right", 0⟩ 6 = some 9 := rfl

/-- A state that serves memories holds their bytes. -/
theorem Serving.holding (h : Serving parts C xs σ) :
    Holding (allMemories (groupsOf parts)) C.bytes σ := by
  obtain ⟨P, w, hP, hC⟩ := h.memories
  exact ⟨h.seeded, P, w, hP, hC.sound, hC.bytes⟩

/-- **Booted machines hold the bytes of their memories**, on which loads and stores work. -/
theorem exists_booted_holding (h : Ordered parts) (hs : Reached parts s) :
    ∃ s', Booted parts s' ∧
      Holds (Holding (allMemories (groupsOf parts)) (initialContents parts).bytes) s'.store := by
  obtain ⟨ps, hps, -⟩ := hs.exists_programs
  obtain ⟨S, hready, hruns⟩ := exists_stage h hps
  obtain ⟨n, σ, hσ, -, hreload⟩ := exists_in_reload hruns hps hs
  obtain ⟨s', hs', -, -, hmodels⟩ := hreload n (Nat.le_refl n)
  exact ⟨s', .reloaded (hs.limited n) h.library hs', σ, hmodels,
    (hσ.pristine hready).serving.holding⟩

end Machine

end WasmPack
