/-
  WasmPack.Proofs.Execution.Reached

  The machines that a host can bring about, and what holds of all of them.  A
  property that every command of the loaded code maintains holds wherever a run
  ends, at its end, at a fault, or at its limit.
-/
import Mathlib.Data.List.Forall2
import WasmPack.Library.Basic
import WasmPack.Proofs.Compile.Program
import WasmPack.Proofs.Execution.Loaded
import WasmPack.Proofs.State.Frame

namespace WasmPack

namespace Machine

variable {code : Code} {I : State → Prop} {limit gas : Nat} {frames : List Function} {s : Store}
  {σ : State} {ps : List Program} {name : String} {f : Function}

/-! ## Runs -/

/-- Every command of the function maintains a property. -/
def Function.Maintains (tags : TagTable) (I : State → Prop) (f : Function) : Prop :=
  ∀ c ∈ f.commands, Machine.Maintains I (step tags f.ns c)

theorem functionsOf_forall {P : Function → Prop} {names : List String} {entered : List Function}
    (hcode : ∀ name f, code.function name = .ok f → P f)
    (h : code.functionsOf names = .ok entered) : ∀ f ∈ entered, P f := by
  induction names generalizing entered with
  | nil =>
    cases h
    exact fun f hf => nomatch hf
  | cons name names ih =>
    obtain ⟨rest, hrest, h⟩ := except_bind_eq_ok.1 h
    obtain ⟨f, hf, h⟩ := except_bind_eq_ok.1 h
    cases h
    intro g hg
    obtain rfl | hg := List.mem_cons.1 hg
    · exact hcode name g hf
    · exact ih hrest g hg

/-- A run ends in a state with the property. -/
theorem run_maintains (hcode : ∀ name f, code.function name = .ok f → f.Maintains code.tags I)
    (hframes : ∀ f ∈ frames, f.Maintains code.tags I) (hs : s.Models σ) (hI : I σ) :
    ∃ σ', I σ' ∧ (run code limit gas frames s).store.Models σ' := by
  induction gas, frames, s using run.induct code limit generalizing σ with
  | case1 gas s =>
    rw [run]
    exact ⟨σ, hI, hs⟩
  | case2 gas s ns outer ih =>
    rw [run]
    exact ih (fun f hf => hframes f (List.mem_cons_of_mem _ hf)) hs hI
  | case3 gas s ns c rest outer hle =>
    rw [run, if_pos hle]
    exact ⟨σ, hI, hs⟩
  | case4 gas s ns c rest outer hle e s₁ hstep =>
    obtain ⟨σ₁, hI₁, hs₁⟩ := hframes _ List.mem_cons_self c List.mem_cons_self σ s hI hs
    rw [after, hstep] at hs₁
    rw [run, if_neg hle, hstep]
    exact ⟨σ₁, hI₁, hs₁⟩
  | case5 gas s ns c rest outer hle callees s₁ hstep e hf =>
    obtain ⟨σ₁, hI₁, hs₁⟩ := hframes _ List.mem_cons_self c List.mem_cons_self σ s hI hs
    rw [after, hstep] at hs₁
    rw [run, if_neg hle, hstep]
    simp only [hf]
    exact ⟨σ₁, hI₁, hs₁⟩
  | case6 gas s ns c rest outer hle callees s₁ hstep entered hf ih =>
    -- The functions under way next are those called, what is left of this one, and the outer ones.
    have hfirst := hframes _ List.mem_cons_self
    obtain ⟨σ₁, hI₁, hs₁⟩ := hfirst c List.mem_cons_self σ s hI hs
    rw [after, hstep] at hs₁
    rw [run, if_neg hle, hstep]
    simp only [hf]
    refine ih (fun g hg => ?_) hs₁ hI₁
    obtain hg | hg := List.mem_append.1 hg
    · exact functionsOf_forall hcode hf g hg
    · obtain rfl | hg := List.mem_cons.1 hg
      · exact fun d hd => hfirst d (List.mem_cons_of_mem c hd)
      · exact hframes g (List.mem_cons_of_mem _ hg)

end Machine

/-! ## Parts -/

/-- What a host loads: the library, or a module in a namespace. -/
inductive Part where
  | library
  | module (ns : String) (m : Wasm.Module)

/-- The program of a part. -/
def Part.program : Part → Except Compile.CompileError Program
  | .library => .ok Library.program
  | .module ns m => Compile.compileModule ns m

/-- The programs of parts, in order. -/
def Part.Give (parts : List Part) (ps : List Program) : Prop :=
  List.Forall₂ (fun part p => part.program = .ok p) parts ps

/-- One of the parts is a module with the namespace. -/
def Part.Names (parts : List Part) (ns : String) : Prop := ∃ m, .module ns m ∈ parts

variable {parts : List Part} {part : Part} {ps : List Program} {p : Program}

/-- Parts have one list of programs. -/
theorem Part.Give.unique {qs : List Program} (hps : Part.Give parts ps) (hqs : Part.Give parts qs) :
    ps = qs :=
  List.right_unique_forall₂' (fun _ _ _ hp hq => Except.ok.inj (hp.symm.trans hq)) hps hqs

theorem Part.Give.exists_program (h : Part.Give parts ps) (hpart : part ∈ parts) :
    ∃ p ∈ ps, part.program = .ok p := by
  induction h with
  | nil => cases hpart
  | cons hp _ ih =>
    obtain rfl | hpart := List.mem_cons.1 hpart
    · exact ⟨_, List.mem_cons_self, hp⟩
    · obtain ⟨q, hq, hqp⟩ := ih hpart
      exact ⟨q, List.mem_cons_of_mem _ hq, hqp⟩

theorem Part.Give.exists_part (h : Part.Give parts ps) (hp : p ∈ ps) :
    ∃ part ∈ parts, part.program = .ok p := by
  induction h with
  | nil => cases hp
  | cons hpart _ ih =>
    obtain rfl | hp := List.mem_cons.1 hp
    · exact ⟨_, List.mem_cons_self, hpart⟩
    · obtain ⟨part, hpart, hq⟩ := ih hp
      exact ⟨part, List.mem_cons_of_mem _ hpart, hq⟩

/-! ## Reached machines -/

namespace Machine

/-- The machine behind a request, whether or not the request fails. -/
def asked (m : Machine) (request : Request α) : Machine :=
  match request m with
  | .ok _ m' => m'
  | .error _ m' => m'

/-- The machines that a host can bring about with some parts loaded.  It may set every register
    that is not a constant. -/
inductive Reached : List Part → Machine → Prop where
  | fresh (limit : Nat) : Reached [] { gasLimit := limit }
  | load {parts : List Part} {m : Machine} {part : Part} {p : Program} (h : Reached parts m)
      (hp : part.program = .ok p) : Reached (parts ++ [part]) (m.load p)
  | limited {parts : List Part} {m : Machine} (h : Reached parts m) (limit : Nat) :
      Reached parts { m with gasLimit := limit }
  | score {parts : List Part} {m : Machine} (h : Reached parts m) {r : Register}
      (hr : r.isWork = true) (n : Int32) : Reached parts (m.asked (onStore (setScore r n)))
  | push {parts : List Part} {m : Machine} (h : Reached parts m) (n : Int32) :
      Reached parts (m.asked (onStore (push n)))
  | truncate {parts : List Part} {m : Machine} (h : Reached parts m) (size : Nat) :
      Reached parts (m.asked (onStore (truncateStack size)))
  | call {parts : List Part} {m : Machine} (h : Reached parts m) (name : String) :
      Reached parts (m.asked (call name))
  | reload {parts : List Part} {m : Machine} (h : Reached parts m) : Reached parts (m.asked reload)

variable {m : Machine} {I : State → Prop}

theorem asked_onStore (m : Machine) (work : Exec α) :
    m.asked (onStore work) = { m with store := after work m.store } := by
  obtain ⟨code, store, gas, gasLimit⟩ := m
  unfold asked onStore after
  cases h : work store <;> simp only [h]

theorem asked_runFunction (m : Machine) (f : Function) : ∃ gas,
    m.asked (runFunction f) =
      { m with store := (run m.code m.gasLimit 0 [f] m.store).store, gas := gas } := by
  obtain ⟨code, store, gas, gasLimit⟩ := m
  unfold asked runFunction
  cases h : run code gasLimit 0 [f] store with
  | mk outcome g s => cases outcome <;> exact ⟨g, by simp only [h]⟩

/-- A run that completes is a request that succeeds. -/
theorem runFunction_eq_ok {gas : Nat} {s' : Store}
    (h : run m.code m.gasLimit 0 [f] m.store = ⟨.ok (), gas, s'⟩) :
    runFunction f m = .ok () { m with store := s', gas := gas } := by
  obtain ⟨code, store, g, limit⟩ := m
  unfold runFunction
  simp only at h
  simp only [h]

/-- Calling runs the function with the name, if there is one. -/
theorem asked_call (m : Machine) (name : String) : m.asked (call name) = m ∨
    ∃ f, m.code.function name = .ok f ∧ m.asked (call name) = m.asked (runFunction f) := by
  unfold asked call
  cases h : m.code.function name with
  | error e => exact .inl rfl
  | ok f => exact .inr ⟨f, rfl, rfl⟩

/-- The code of a reached machine is that of the programs that have been loaded. -/
theorem Reached.exists_programs (h : Reached parts m) :
    ∃ ps, Part.Give parts ps ∧ m.code = ps.foldl Code.addProgram {} := by
  induction h with
  | fresh limit => exact ⟨[], List.Forall₂.nil, rfl⟩
  | @load parts m part p h hp ih =>
    obtain ⟨ps, hps, hcode⟩ := ih
    refine ⟨ps ++ [p], List.rel_append hps (List.Forall₂.cons hp .nil), ?_⟩
    rw [List.foldl_append, ← hcode]
    rfl
  | limited h limit ih => exact ih
  | score h hr n ih =>
    rw [asked_onStore]
    exact ih
  | push h n ih =>
    rw [asked_onStore]
    exact ih
  | truncate h size ih =>
    rw [asked_onStore]
    exact ih
  | @call parts m h name ih =>
    obtain hm | ⟨f, -, hm⟩ := asked_call m name
    · rw [hm]
      exact ih
    · obtain ⟨gas, hrun⟩ := asked_runFunction m f
      rw [hm, hrun]
      exact ih
  | @reload parts m h ih =>
    obtain ⟨gas, hrun⟩ := asked_runFunction m ⟨"minecraft", [.callTag .load]⟩
    rw [Machine.reload, hrun]
    exact ih

theorem Maintains.push (hI : IgnoresWork I) (n : Int32) : Machine.Maintains I (Machine.push n) :=
  .append hI rfl _

theorem Maintains.truncateStack (hI : IgnoresWork I) (size : Nat) :
    Machine.Maintains I (Machine.truncateStack size) :=
  .changeAt hI rfl fun _ _ hk fields => by
    rw [hk]
    exact ⟨_, rfl, fun _ hj => Fields.get?_modify_of_ne hj⟩

/-- What a host does to the store by itself maintains the property: it sets registers that are not
    constants, and pushes and drops operands. -/
structure KeptByHost (I : State → Prop) : Prop where
  score : ∀ {r : Register}, r.isWork = true → ∀ n, Machine.Maintains I (setScore r n)
  push : ∀ n, Machine.Maintains I (Machine.push n)
  truncate : ∀ size, Machine.Maintains I (truncateStack size)

theorem KeptByHost.of_ignoresWork (hI : IgnoresWork I) : KeptByHost I :=
  ⟨fun hr n => .setScore hI hr n, .push hI, .truncateStack hI⟩

/-- What a host can do to a machine with some parts loaded, and what is loaded then. -/
inductive HostStep : List Part → Machine → List Part → Machine → Prop where
  | load {parts : List Part} {m : Machine} {part : Part} {p : Program}
      (hp : part.program = .ok p) : HostStep parts m (parts ++ [part]) (m.load p)
  | limited {parts : List Part} {m : Machine} (limit : Nat) :
      HostStep parts m parts { m with gasLimit := limit }
  | score {parts : List Part} {m : Machine} {r : Register} (hr : r.isWork = true) (n : Int32) :
      HostStep parts m parts (m.asked (onStore (setScore r n)))
  | push {parts : List Part} {m : Machine} (n : Int32) :
      HostStep parts m parts (m.asked (onStore (push n)))
  | truncate {parts : List Part} {m : Machine} (size : Nat) :
      HostStep parts m parts (m.asked (onStore (truncateStack size)))
  | call {parts : List Part} {m : Machine} (name : String) :
      HostStep parts m parts (m.asked (call name))
  | reload {parts : List Part} {m : Machine} : HostStep parts m parts (m.asked reload)

variable {m' : Machine} {parts' : List Part}

theorem Reached.step (h : Reached parts m) (hs : HostStep parts m parts' m') :
    Reached parts' m' := by
  cases hs with
  | load hp => exact h.load hp
  | limited limit => exact h.limited limit
  | score hr n => exact h.score hr n
  | push n => exact h.push n
  | truncate size => exact h.truncate size
  | call name => exact h.call name
  | reload => exact h.reload

/-- Every command of the parts maintains the property. -/
def Part.AllMaintain (parts : List Part) (I : State → Prop) : Prop :=
  ∀ part ∈ parts, ∀ p, part.program = .ok p → ∀ s ∈ p.sequences,
    ∀ c ∈ s.commands, ∀ tags, Machine.Maintains I (step tags p.ns c)

/-- The functions of a reached machine come from programs of parts. -/
theorem Reached.function_maintains (h : Reached parts m) (hparts : Part.AllMaintain parts I)
    (hf : m.code.function name = .ok f) : f.Maintains m.code.tags I := by
  obtain ⟨ps, hps, hload⟩ := h.exists_programs
  rw [hload] at hf ⊢
  obtain ⟨p, hp, s, hs, -, rfl⟩ := exists_of_function hf
  obtain ⟨part, hpart, hprogram⟩ := hps.exists_part hp
  exact fun c hc => hparts part hpart p hprogram s hs c hc _

/-- What a host keeps by itself, and every command of the parts maintains, holds behind what a host
    does if it holds before. -/
theorem HostStep.keeps (hs : HostStep parts m parts' m') (h : Reached parts m)
    (hI : KeptByHost I) (hparts : Part.AllMaintain parts I)
    (hm : ∃ σ, m.store.Models σ ∧ I σ) : ∃ σ, m'.store.Models σ ∧ I σ := by
  have hrun : ∀ f : Function, f.Maintains m.code.tags I →
      ∃ σ, (m.asked (runFunction f)).store.Models σ ∧ I σ := by
    intro f hf
    obtain ⟨σ, hσ, hIσ⟩ := hm
    obtain ⟨gas, heq⟩ := asked_runFunction m f
    obtain ⟨τ, hτ, hs'⟩ := run_maintains (fun _ _ hf => h.function_maintains hparts hf)
      (fun g hg => by rw [List.mem_singleton.1 hg]; exact hf) hσ hIσ
    rw [heq]
    exact ⟨τ, hs', hτ⟩
  have hwork : ∀ {α : Type} {work : Exec α}, Machine.Maintains I work →
      ∃ σ, (m.asked (onStore work)).store.Models σ ∧ I σ := by
    intro α work hw
    obtain ⟨σ, hσ, hIσ⟩ := hm
    obtain ⟨τ, hτ, hs'⟩ := hw σ m.store hIσ hσ
    rw [asked_onStore]
    exact ⟨τ, hs', hτ⟩
  -- Of what a host does, only calls and requests to prepare run commands.
  cases hs with
  | load hp => exact hm
  | limited limit => exact hm
  | score hr n => exact hwork (hI.score hr n)
  | push n => exact hwork (hI.push n)
  | truncate size => exact hwork (hI.truncate size)
  | call name =>
    rcases asked_call m name with heq | ⟨f, hf, heq⟩
    · rw [heq]
      exact hm
    · rw [heq]
      exact hrun f (h.function_maintains hparts hf)
  | reload =>
    apply hrun
    intro c hc
    rw [List.mem_singleton.1 hc]
    exact .step .nothing rfl

/-- What holds at first, is kept by a host, and is maintained by every command of the parts, holds
    of every reached machine. -/
theorem Reached.invariant (h : Reached parts m) (hI : KeptByHost I)
    (hempty : I ⟨fun _ => none, fun _ _ => none⟩) (hparts : Part.AllMaintain parts I) :
    ∃ σ, m.store.Models σ ∧ I σ := by
  induction h with
  | fresh limit => exact ⟨_, Store.models_empty, hempty⟩
  | load h hp ih =>
    have hparts' := fun part hpart => hparts part (List.mem_append_left _ hpart)
    exact (HostStep.load hp).keeps h hI hparts' (ih hparts')
  | limited h limit ih => exact (HostStep.limited limit).keeps h hI hparts (ih hparts)
  | score h hr n ih => exact (HostStep.score hr n).keeps h hI hparts (ih hparts)
  | push h n ih => exact (HostStep.push n).keeps h hI hparts (ih hparts)
  | truncate h size ih => exact (HostStep.truncate size).keeps h hI hparts (ih hparts)
  | call h name ih => exact (HostStep.call name).keeps h hI hparts (ih hparts)
  | reload h ih => exact HostStep.reload.keeps h hI hparts (ih hparts)

/-! ## States that can be reached -/

/-- Some machine with the code of the parts can be brought into the state. -/
def CanReach (parts : List Part) (code : Code) (σ : State) : Prop :=
  ∃ m, Reached parts m ∧ m.code = code ∧ m.store.Models σ

namespace CanReach

variable {code : Code} {σ σ' : State} {e : Except Fault Unit} {f : Function} {name : String}
  {r : Register}

/-- With a limit that is high enough, a machine does what is derived. -/
theorem exists_run (h : CanReach parts code σ) (hr : Runs code [f] σ e σ') :
    ∃ m gas s', Reached parts m ∧ m.code = code ∧ m.store.Models σ ∧
      run code m.gasLimit 0 [f] m.store = ⟨e, gas, s'⟩ ∧ s'.Models σ' := by
  obtain ⟨m, hm, hcode, hs⟩ := h
  obtain ⟨n, hn⟩ := hr.run_of_le
  obtain ⟨s', hrun, hs'⟩ := hn m.store hs n (Nat.le_refl n)
  exact ⟨_, n, s', hm.limited n, hcode, hs, hrun, hs'⟩

theorem reload (h : CanReach parts code σ)
    (hr : Runs code [⟨"minecraft", [.callTag .load]⟩] σ e σ') : CanReach parts code σ' := by
  obtain ⟨m, gas, s', hm, hcode, -, hrun, hs'⟩ := h.exists_run hr
  have hreload := hm.reload
  obtain ⟨g, hasked⟩ := asked_runFunction m ⟨"minecraft", [.callTag .load]⟩
  rw [Machine.reload, hasked, hcode, hrun] at hreload
  exact ⟨_, hreload, rfl, hs'⟩

theorem call (h : CanReach parts code σ) (hf : code.function name = .ok f)
    (hr : Runs code [f] σ e σ') : CanReach parts code σ' := by
  obtain ⟨m, gas, s', hm, hcode, -, hrun, hs'⟩ := h.exists_run hr
  have hcall := hm.call name
  obtain ⟨g, hasked⟩ := asked_runFunction m f
  have hname : m.asked (Machine.call name) = m.asked (runFunction f) := by
    unfold Machine.call
    simp only [asked, hcode, hf]
  rw [hname, hasked, hcode, hrun] at hcall
  exact ⟨_, hcall, rfl, hs'⟩

/-- A machine comes to the state, and with a limit that is high enough a call of what is derived to
    complete does. -/
theorem exists_call (h : CanReach parts code σ) (hf : code.function name = .ok f)
    (hr : Runs code [f] σ (.ok ()) σ') : ∃ m m', Reached parts m ∧ m.code = code ∧
      m.store.Models σ ∧ Machine.call name m = .ok () m' ∧ m'.store.Models σ' := by
  obtain ⟨m, gas, s', hm, rfl, hs, hrun, hs'⟩ := h.exists_run hr
  refine ⟨m, { m with store := s', gas }, hm, rfl, hs, ?_, hs'⟩
  unfold Machine.call
  simp only [hf]
  exact runFunction_eq_ok hrun

/-- A host sets a register that is not a constant. -/
theorem setReg (h : CanReach parts code σ) (hr : r.isWork = true) (n : Int32) :
    CanReach parts code (σ.setReg r n) := by
  obtain ⟨m, hm, hcode, hs⟩ := h
  refine ⟨_, hm.score hr n, ?_, ?_⟩
  · rw [asked_onStore]
    exact hcode
  · rw [asked_onStore]
    exact hs.setReg r n

end CanReach

end Machine

end WasmPack
