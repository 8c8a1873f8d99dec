/-
  WasmPack.Proofs.Execution.Booted

  Machines on which the library is loaded and has been prepared.  Preparing runs
  the members of the load tag, of which that of the library comes first, so the
  constants have their values from then on: no command gives a constant another
  value, and a host sets only registers that are not constants.  Nor does any
  command put anything else in the place of the page of zeros.  Values lie only in
  the places that the library and the modules have for them.
-/
import WasmPack.Proofs.Calls.Leads
import WasmPack.Proofs.Execution.Preparation
import WasmPack.Proofs.Paging.Parts

namespace WasmPack

open Nbt (entries append_listOf)

namespace Machine

variable {parts parts' : List Part} {m m' : Machine} {tags : TagTable} {ns : String} {c : Command}
  {σ : State} {I : State → Prop} {limit : Nat}

/-! ## Constants -/

/-- Every constant that compiled code uses has its value. -/
def Seeded (σ : State) : Prop := ∀ n ∈ Register.seeded, σ.regs (.const n) = some n

/-- The registers that are not constants, and everything in storages. -/
def Writes.besidesConsts : Writes := ⟨Register.isWork, fun _ => true⟩

theorem Seeded.ignores : Ignores Writes.besidesConsts Seeded where
  setReg {σ r} m h hr n hn := by
    have hne : Register.const n ≠ r := by
      rintro rfl
      cases hr
    rw [State.regs_setReg, if_neg hne]
    exact h n hn
  agree h _ hagree n hn := by
    rw [hagree.1]
    exact h n hn

theorem Seeded.ignoresWork : IgnoresWork Seeded :=
  Seeded.ignores.mono ⟨fun _ h => h, fun _ _ => rfl⟩

/-- A command that keeps states tidy gives a constant no other value. -/
theorem Harmless.maintains_seeded (h : Harmless ns c) : Maintains Seeded (step tags ns c) := by
  induction h with
  | neutral hc _ => exact .step Seeded.ignoresWork hc
  | const n =>
    refine .plain (.setScore _ _) fun σ hσ => .does performs_setScore fun k hk => ?_
    rw [State.regs_setReg]
    split
    · rename_i heq
      rw [Register.const.inj heq]
    · exact hσ k hk
  | guarded hg _ ih => exact .guarded hg ih
  | _ => exact .step Seeded.ignores rfl

theorem allMaintain_seeded : Part.AllMaintain parts Seeded := fun _ _ _ hp _ hs c hc _ =>
  Harmless.maintains_seeded (Part.allHarmless hp hs c hc)

/-! ## The page of zeros -/

/-- The page of zeros is where memories get their pages from. -/
def HasZeroPage (σ : State) : Prop := σ.cells sharedId "zero_page" = some Compile.zeroPage

/-- Everything but the page of zeros. -/
def Writes.besidesZeroPage : Writes := ⟨fun _ => true, fun k => decide (k ≠ "zero_page")⟩

theorem HasZeroPage.ignores : Ignores Writes.besidesZeroPage HasZeroPage :=
  ⟨fun _ hσ _ => hσ, fun hσ hk h => (h.2 _ _ (.inr (of_decide_eq_true hk).symm)).trans hσ⟩

theorem HasZeroPage.ignoresWork : IgnoresWork HasZeroPage := by
  refine HasZeroPage.ignores.mono ⟨fun _ _ => rfl, fun k hk => decide_eq_true ?_⟩
  rintro rfl
  exact absurd hk (by decide)

/-- A command that keeps states tidy puts nothing else in its place. -/
theorem Harmless.maintains_hasZeroPage (h : Harmless ns c) :
    Maintains HasZeroPage (step tags ns c) := by
  induction h with
  | neutral hc _ => exact .step HasZeroPage.ignoresWork hc
  | zeroPage =>
    refine .plain (.setData _ _) fun σ _ => .does (performs_setData_top rfl) ?_
    show (σ.setCell sharedId "zero_page" Compile.zeroPage).cells sharedId "zero_page" = _
    rw [State.cells_setCell, if_pos ⟨rfl, rfl⟩]
  | guarded hg _ ih => exact .guarded hg ih
  | _ => exact .step HasZeroPage.ignores rfl

theorem allMaintain_hasZeroPage : Part.AllMaintain parts HasZeroPage := fun _ _ _ hp _ hs c hc _ =>
  Harmless.maintains_hasZeroPage (Part.allHarmless hp hs c hc)

/-! ## Where values lie -/

/-- The places in storages that values are put in, with modules in some namespaces. -/
def IsPlace (names : String → Prop) (id k : String) : Prop :=
  (id = sharedId ∧ k ∈ Storage.shared.keys) ∨ (∃ ns, names ns ∧ id = ownId ns) ∧ k ∈ Storage.own.keys

/-- There are no values anywhere else. -/
def AtHome (names : String → Prop) (σ : State) : Prop :=
  ∀ id k, ¬IsPlace names id k → σ.cells id k = none

namespace AtHome

variable {names : String → Prop} {p : Path}

/-- What becomes of a value that is in its place does not matter. -/
theorem spares (hp : p.isHome = true) (hown : p.storage = .own → names ns) :
    p.Spares ns (AtHome names) := by
  unfold Path.isHome at hp
  split at hp
  · rename_i k rest hsegments
    have hplace : IsPlace names (p.storage.id ns) k := by
      have hk := of_decide_eq_true hp
      cases hstorage : p.storage with
      | shared =>
        rw [hstorage] at hk
        exact .inl ⟨rfl, hk⟩
      | own =>
        rw [hstorage] at hk
        exact .inr ⟨⟨ns, hown hstorage, rfl⟩, hk⟩
    refine ⟨k, rest, hsegments, fun σ τ hσ hagree i j hij => ?_⟩
    rw [hagree.2 i j]
    · exact hσ i j hij
    · by_contra hsame
      rw [not_or, not_not, not_not] at hsame
      exact hij (hsame.1 ▸ hsame.2 ▸ hplace)
  · cases hp

/-- A command that mentions only such values puts nothing anywhere else. -/
theorem maintained (hc : c.staysHome = true)
    (hown : ∀ p ∈ c.paths, p.storage = .own → names ns) :
    Maintains (AtHome names) (step tags ns c) :=
  .of_paths (fun _ hσ => hσ) fun p hp =>
    spares (List.all_eq_true.1 hc p hp) (hown p hp)

theorem spares_stack : Path.stack.Spares "" (AtHome names) := spares rfl fun h => nomatch h

/-- A host puts nothing anywhere else. -/
theorem keptByHost : KeptByHost (AtHome names) where
  score {r} _ n := fun σ _ hσ hs => ⟨σ.setReg r n, hσ, hs.setReg r n⟩
  push n := spares_stack.append _
  truncate size := by
    refine spares_stack.changeAt fun k rest hk => ?_
    rw [hk]
    exact fun fields => ⟨_, rfl, fun _ hj => Fields.get?_modify_of_ne hj⟩

end AtHome

/-- Whatever a host does, values lie only where the parts put them. -/
theorem Reached.atHome (h : Reached parts m) :
    ∃ σ, m.store.Models σ ∧ AtHome (Part.Names parts) σ := by
  refine h.invariant AtHome.keptByHost (fun _ _ _ => rfl) fun part hpart p hp s hs c hc tags => ?_
  refine AtHome.maintained (Harmless.staysHome (Part.allHarmless hp hs c hc)) fun path hpath hown => ?_
  cases part with
  | library =>
    cases hp
    rw [Library.storage_of_mem_paths hs hc path hpath] at hown
    cases hown
  | module ns m =>
    obtain ⟨c⟩ := Compile.exists_compiled hp
    rw [c.ns_eq]
    exact ⟨m, hpart⟩

/-! ## Preparing -/

/-- The library is found once it has been loaded. -/
theorem Reached.hasLibrary (h : Reached parts m) (hlib : .library ∈ parts) :
    m.code.HasLibrary := by
  obtain ⟨ps, hps, hcode⟩ := h.exists_programs
  rw [hcode]
  exact hps.hasLibrary hlib

/-- The library is prepared before anything else. -/
theorem exists_load_members (h : Reached parts m) (hlib : .library ∈ parts) :
    ∃ names, m.code.tags.members .load = Part.loadName :: names := by
  obtain ⟨ps, hps, hcode⟩ := h.exists_programs
  have hpos : 0 < parts.countP Part.isLibrary := List.countP_pos_iff.2 ⟨.library, hlib, rfl⟩
  have hmembers := hps.load_members {}
  rw [← hcode] at hmembers
  obtain ⟨n, hn⟩ : ∃ n, parts.countP Part.isLibrary = n + 1 := ⟨_, (Nat.sub_add_cancel hpos).symm⟩
  rw [hn, List.replicate_succ] at hmembers
  exact ⟨_, hmembers⟩

/-- A request to prepare that succeeds is a run to its end. -/
theorem reaches_of_reload (h : reload m = .ok () m') :
    Reaches m.code ⟨[⟨"minecraft", [.callTag .load]⟩], m.store⟩ ⟨[], m'.store⟩ := by
  obtain ⟨code, store, gas, limit⟩ := m
  unfold reload runFunction at h
  cases hend : run code limit 0 [⟨"minecraft", [.callTag .load]⟩] store with
  | mk outcome g s =>
    simp only [hend] at h
    cases outcome with
    | error e => cases h
    | ok u =>
      cases h
      exact reaches_of_run hend

/-- A run to its end is one of its first functions, and one of the others from where that ended. -/
theorem reaches_rest {code : Code} {fs gs : List Function} {s s' : Store} {σ' : State}
    (hruns : Runs code fs σ (.ok ()) σ') (hs : s.Models σ)
    (h : Reaches code ⟨fs ++ gs, s⟩ ⟨[], s'⟩) :
    ∃ s₁, s₁.Models σ' ∧ Reaches code ⟨gs, s₁⟩ ⟨[], s'⟩ := by
  obtain ⟨n, hn⟩ := hruns.run_of_le
  obtain ⟨s₁, hrun, hs₁⟩ := hn s hs n (Nat.le_refl n)
  have hfirst : Reaches code ⟨fs ++ gs, s⟩ ⟨gs, s₁⟩ := (reaches_of_run hrun).behind gs
  refine ⟨s₁, hs₁, ?_⟩
  rcases Reaches.total hfirst h with hrest | hrest
  · exact hrest
  · rw [reaches_nil hrest]
    exact .refl

/-- Once preparing has come to its end, what the library sees to holds, if all code maintains it. -/
theorem holds_of_reload (hparts : Part.AllMaintain parts I) (hI : ∀ σ, Prepared σ → I σ)
    (h : Reached parts m) (hlib : .library ∈ parts) (hr : reload m = .ok () m') :
    ∃ σ, m'.store.Models σ ∧ I σ := by
  obtain ⟨names, hnames⟩ := exists_load_members h hlib
  obtain ⟨σ, hσ, -⟩ := h.tidy
  have hcode := h.hasLibrary hlib
  have hstep : step m.code.tags "minecraft" (.callTag .load) m.store =
      .ok (Part.loadName :: names) m.store := by
    show inspect (fun _ => tagMembers m.code.tags .load) m.store = _
    unfold inspect tagMembers
    rw [hnames]
    rfl
  rcases (reaches_of_reload hr).cases_head with heq | ⟨y, hnext, hrest⟩
  · cases heq
  cases hnext with
  | step hs hf =>
    cases hs.symm.trans hstep
    obtain ⟨others, hothers, hf⟩ := except_bind_eq_ok.1 hf
    obtain ⟨f, hload, hf⟩ := except_bind_eq_ok.1 hf
    cases hload.symm.trans (hcode.routine .load "")
    cases hf
    -- The library is prepared in front of all others, and those keep what it has set.
    obtain ⟨σ₁, hruns, hprepared, -⟩ := @runs_load m.code σ
    have hlast : ∃ s₁, s₁.Models σ₁ ∧
        Reaches m.code ⟨others ++ [⟨"minecraft", []⟩], s₁⟩ ⟨[], m'.store⟩ :=
      reaches_rest hruns hσ hrest
    obtain ⟨s₁, hs₁, hlast⟩ := hlast
    obtain ⟨n, hn⟩ := run_of_reaches hlast
    have hall : ∀ name f, m.code.function name = .ok f → f.Maintains m.code.tags I :=
      fun _ _ hf => h.function_maintains hparts hf
    have hframes : ∀ f ∈ others ++ [⟨"minecraft", []⟩], f.Maintains m.code.tags I := by
      intro f hf
      rcases List.mem_append.1 hf with hf | hf
      · exact functionsOf_forall hall hothers f hf
      · rw [List.mem_singleton.1 hf]
        exact fun c hc => nomatch hc
    have hkeeps : ∃ τ, I τ ∧ (run m.code n 0 _ s₁).store.Models τ :=
      run_maintains hall hframes hs₁ (hI σ₁ hprepared)
    rw [hn n 0 (by omega)] at hkeeps
    obtain ⟨τ, hτ, hs'⟩ := hkeeps
    exact ⟨τ, hs', hτ⟩

/-! ## Booted machines -/

/-- The machines that a host can bring about on which the library has been loaded and prepared. -/
inductive Booted : List Part → Machine → Prop where
  | reloaded {parts : List Part} {m m' : Machine} (h : Reached parts m) (hlib : .library ∈ parts)
      (hr : reload m = .ok () m') : Booted parts m'
  | step {parts parts' : List Part} {m m' : Machine} (h : Booted parts m)
      (hs : HostStep parts m parts' m') : Booted parts' m'

/-- A number is pushed. -/
theorem does_push {xs : List Nbt} (hstack : σ.operands = some (entries xs)) (n : Int32) :
    Does σ (push n) () (σ.setOperands (xs ++ [.int n])) := by
  have hcell : σ.cells (Path.stack.storage.id "") "stack" = some (entries xs) := hstack
  have happend : Nbt.append [] (.int n) (entries xs) = (some true, entries (xs ++ [.int n])) :=
    append_listOf (f := id) (x := .int n)
  exact fun s hs => hs.append_deep rfl hcell happend

namespace Booted

theorem reached (h : Booted parts m) : Reached parts m := by
  induction h with
  | @reloaded parts m m' h _ hr =>
    have hasked : m.asked reload = m' := by
      unfold asked
      rw [hr]
    rw [← hasked]
    exact h.reload
  | step _ hs ih => exact ih.step hs

/-- The library stays loaded. -/
theorem library_mem (h : Booted parts m) : .library ∈ parts := by
  induction h with
  | reloaded _ hlib _ => exact hlib
  | step _ hs ih =>
    cases hs with
    | load _ => exact List.mem_append_left _ ih
    | _ => exact ih

theorem hasLibrary (h : Booted parts m) : m.code.HasLibrary := h.reached.hasLibrary h.library_mem

/-- What the library sees to holds from then on, if all code maintains it. -/
theorem holds (hwork : KeptByHost I) (hparts : ∀ parts, Part.AllMaintain parts I)
    (hI : ∀ σ, Prepared σ → I σ) (h : Booted parts m) : ∃ σ, m.store.Models σ ∧ I σ := by
  induction h with
  | reloaded h hlib hr => exact holds_of_reload (hparts _) hI h hlib hr
  | step h hs ih => exact hs.keeps h.reached hwork (hparts _) ih

/-- The constants keep their values. -/
theorem seeded (h : Booted parts m) : ∃ σ, m.store.Models σ ∧ Seeded σ :=
  h.holds (.of_ignoresWork Seeded.ignoresWork) (fun _ => allMaintain_seeded) fun _ hprepared =>
    hprepared.consts

/-- The page of zeros stays what it is. -/
theorem hasZeroPage (h : Booted parts m) : ∃ σ, m.store.Models σ ∧ HasZeroPage σ :=
  h.holds (.of_ignoresWork HasZeroPage.ignoresWork) (fun _ => allMaintain_hasZeroPage)
    fun _ hprepared => hprepared.zeroPage

/-- A host pushes a number. -/
theorem pushed {xs : List Nbt} (h : Booted parts m) (hs : m.store.Models σ)
    (hstack : σ.operands = some (entries xs)) (n : Int32) :
    ∃ m', Booted parts m' ∧ m'.store.Models (σ.setOperands (xs ++ [.int n])) := by
  obtain ⟨s', hpush, hs'⟩ := does_push hstack n m.store hs
  refine ⟨_, h.step (.push n), ?_⟩
  rw [asked_onStore]
  show (after (push n) m.store).Models _
  unfold after
  rw [hpush]
  exact hs'

end Booted

/-- With a limit that is high enough, preparing the library alone comes to its end. -/
theorem exists_reload : ∃ m m' σ, Reached [.library] m ∧ reload m = .ok () m' ∧
    m'.store.Models σ ∧ σ.operands = some (entries []) := by
  have hprogram : Part.library.program = .ok Library.program := rfl
  have hreached : ∀ limit, Reached [.library]
      ({ gasLimit := limit : Machine }.load Library.program) := fun limit =>
    (Reached.fresh limit).load hprogram
  have hps : Part.Give [.library] [Library.program] := .cons hprogram .nil
  obtain ⟨code, hcode⟩ : ∃ code, code = [Library.program].foldl Code.addProgram {} := ⟨_, rfl⟩
  have hlib : code.HasLibrary := hcode ▸ hps.hasLibrary List.mem_cons_self
  have hmembers : code.tags.members .load = [Part.loadName] := by
    have hload := hps.load_members {}
    rw [← hcode] at hload
    exact hload
  obtain ⟨σ, hruns, hprepared, -⟩ := @runs_load code ⟨fun _ => none, fun _ _ => none⟩
  have hentered : code.functionsOf (code.tags.members .load) =
      .ok [⟨sharedNamespace, Library.loadCommands⟩] := by
    have hload := hlib.routine .load sharedNamespace
    rw [hmembers, Code.functionsOf, Part.loadName, hload]
    rfl
  have hne : code.tags.members .load ≠ [] := fun h =>
    List.cons_ne_nil _ _ (hmembers.symm.trans h)
  -- The limit is what the run takes, so the machine is loaded with it.
  have hboot : Runs code [⟨"minecraft", [.callTag .load]⟩] ⟨fun _ => none, fun _ _ => none⟩
      (.ok ()) σ := .step (.callTag hne) hentered (hruns.append .nil)
  obtain ⟨n, hn⟩ := hboot.run_of_le
  obtain ⟨s', hrun, hs'⟩ := hn {} Store.models_empty n (Nat.le_refl n)
  have hloaded : { gasLimit := n : Machine }.load Library.program = ⟨code, {}, 0, n⟩ := by
    rw [hcode]
    rfl
  refine ⟨_, ⟨code, s', n, n⟩, σ, hreached n, ?_, hs', hprepared.lists "stack" (by decide)⟩
  rw [hloaded]
  unfold reload runFunction
  simp only [hrun]

/-- A host can bring about every operand stack of numbers. -/
theorem exists_booted (xs : List Int32) : ∃ m σ, Booted [.library] m ∧ m.store.Models σ ∧
    σ.operands = some (entries (xs.map .int)) := by
  induction xs using List.reverseRecOn with
  | nil =>
    obtain ⟨m, m', σ, h, hr, hs, hstack⟩ := exists_reload
    exact ⟨m', σ, .reloaded h List.mem_cons_self hr, hs, hstack⟩
  | append_singleton xs n ih =>
    obtain ⟨m, σ, h, hs, hstack⟩ := ih
    obtain ⟨m', h', hs'⟩ := h.pushed hs hstack n
    refine ⟨m', _, h', hs', ?_⟩
    rw [State.operands_setOperands, List.map_append]
    rfl

end Machine

end WasmPack
