/-
  WasmPack.Proofs.Sizes.Served

  Whatever a host asks of loaded modules, no memory gets more pages than it may
  have.

  The host may ask for everything but what appends pages unchecked.  A run that
  begins elsewhere gets there only through a request for pages or through what
  prepares a module, and both see to it that there is room.
-/
import WasmPack.Proofs.Paging.Preparation
import WasmPack.Proofs.Sizes.Growth

namespace WasmPack

open Machine Compile

namespace Part

variable {parts : List Part} {ps : List Program} {ns name : String} {cs : List Command}
  {n : Nat} {m : Wasm.Module} {p : Program} {f : Function}

/-- Runs that begin with the commands keep every memory within its bounds, for so many commands. -/
def KeepsBounds (parts : List Part) (code : Code) (n : Nat) (ns : String) (cs : List Command) :
    Prop :=
  Triple code (Keeps code.tags (Sized (Bounds parts))) n ns cs (Sized (Bounds parts))
    (Sized (Bounds parts))

theorem KeepsBounds.zero {code : Code} : KeepsBounds parts code 0 ns cs := by
  cases cs with
  | nil => exact .nil fun _ hσ => hσ
  | cons c cs => exact fun _ _ => Along.zero

variable (hparts : Orderly parts)
  (himports : ∀ ns m, .module ns m ∈ parts → NoInternalImports m) (hps : Part.Give parts ps)

/-- Every function keeps the bounds, for so many commands, unless it appends pages unchecked. -/
def AllKeepBounds (parts : List Part) (code : Code) (n : Nat) : Prop :=
  ∀ name f, ¬Forces parts name → code.function name = .ok f →
    KeepsBounds parts code n f.ns f.commands

include hps

/-- Steady commands keep the bounds if what they call does. -/
theorem keepsBounds_of_steady (ih : AllKeepBounds parts (ps.foldl Code.addProgram {}) n)
    (hns : ':' ∉ ns.toList) (hcs : Steady cs) (hharmless : AllHarmless ns cs) :
    KeepsBounds parts (ps.foldl Code.addProgram {}) (n + 1) ns cs := by
  refine .all fun c hc => ?_
  obtain ⟨hcalls, hresizes⟩ := Bool.and_eq_true_iff.1 (hcs c hc)
  have hmaintains : ∀ tags, Machine.Maintains (Sized (Bounds parts)) (step tags ns c) := fun tags =>
    Harmless.maintains_sized (hharmless c hc) (by simpa using hresizes)
  refine .calls_of_maintains (hmaintains _) hcalls (Maintains.keeps (hmaintains _) fun _ hσ => hσ)
    (fun q hq f hf => ih _ f (hps.not_forces hq hns) hf) fun tag htag name hname f hf => ?_
  -- The only tag is the one whose members store the window.
  obtain rfl := of_decide_eq_true htag
  obtain ⟨ns', spaces, ⟨m, hm, -⟩, rfl⟩ := SelfContained.exists_member hps hname
  obtain ⟨p, -, hp⟩ := hps.exists_program hm
  obtain ⟨c'⟩ := exists_compiled hp
  exact ih _ f (hps.not_forces rfl (checkNamespace_eq_ok c'.namespaceOk).2) hf

include hparts himports

/-- So does every sequence of a module that does not append pages unchecked. -/
theorem keepsBounds_of_module (ih : AllKeepBounds parts (ps.foldl Code.addProgram {}) n)
    (hm : .module ns m ∈ parts) (c : Compiled ns m p) {s : Sequence} (hs : s ∈ p.sequences)
    (hforces : ¬Forces parts (s.symbol.qualifiedName ns)) :
    KeepsBounds parts (ps.foldl Code.addProgram {}) (n + 1) ns s.commands := by
  have hns := (checkNamespace_eq_ok c.namespaceOk).2
  have hharmless := c.allHarmless hs
  have hdefines : ∀ (i : Nat) (limits : Wasm.Limits),
      c.spaces.memories[i]? = some (.defined limits) →
      Defines parts ⟨ns, i⟩ (effectiveMax limits) := fun i limits hi =>
    ⟨m, c.spaces, limits, hm, c.spacesOk, hi, rfl⟩
  cases c.resizing (himports ns m hm) hs with
  | steady h => exact keepsBounds_of_steady hps ih hns h hharmless
  | growing i limits hi hmax op hop heq =>
    subst heq
    rcases hop with rfl | hop
    · -- A request is the only way to what appends pages.
      have hx : ⟨⟨ns, i⟩, effectiveMax limits⟩ ∈ pagedMemories ns c.spaces.memories :=
        mem_pagedMemories.2 ⟨i, limits, hi, hmax, rfl⟩
      exact triple_grow (q := ⟨⟨ns, i⟩, effectiveMax limits⟩) hparts.apart (hdefines i limits hi)
        (hparts.hasMemory hps hm c hx) (hparts.fits hm c hx)
    · exact absurd ⟨ns, m, _, op, hm, hop, rfl⟩ hforces
  | init rest h heq =>
    subst heq
    refine .seq (triple_initHead hparts.apart (hparts.begins hps hm c) (fun k limits hk => ?_)
      (hparts.few ns m c.spaces hm c.spacesOk))
      (keepsBounds_of_steady hps ih hns h fun d hd => hharmless d (List.mem_append_right _ hd))
    rw [Nat.zero_add]
    exact hdefines k limits (by simpa using hk)

/-- **Functions of loaded modules keep every memory within its bounds**, however their runs end,
    unless they append pages unchecked. -/
theorem allKeepBounds (n : Nat) : AllKeepBounds parts (ps.foldl Code.addProgram {}) n := by
  -- The induction is on the number of commands; a call takes one off.
  induction n with
  | zero => exact fun _ _ _ _ => .zero
  | succ n ih =>
    intro name f hforces hf
    obtain ⟨p, hp, s, hs, rfl, rfl⟩ := exists_of_function hf
    obtain ⟨part, hpart, hprogram⟩ := hps.exists_part hp
    cases part with
    | library =>
      have hharmless := allHarmless hprogram hs
      have hns := colonless hprogram
      cases hprogram
      exact keepsBounds_of_steady hps ih hns (steady_library hs) hharmless
    | module ns m =>
      obtain ⟨c⟩ := exists_compiled hprogram
      rw [Program.nameOf, c.ns_eq] at hforces
      have hkeeps := keepsBounds_of_module hparts himports hps ih hpart c hs hforces
      rw [← c.ns_eq] at hkeeps
      exact hkeeps

end Part

/-! ## Served machines -/

namespace Machine

variable {parts : List Part} {m : Machine} {f : Function}

/-- The machines that a host can bring about once parts have been loaded, if it calls nothing that
    appends pages unchecked. -/
inductive Served (parts : List Part) : Machine → Prop where
  | loaded {ps : List Program} (hps : Part.Give parts ps) (limit : Nat) :
      Served parts (ps.foldl load { gasLimit := limit })
  | limited {m : Machine} (h : Served parts m) (limit : Nat) :
      Served parts { m with gasLimit := limit }
  | score {m : Machine} (h : Served parts m) {r : Register} (hr : r.isWork = true) (n : Int32) :
      Served parts (m.asked (onStore (setScore r n)))
  | push {m : Machine} (h : Served parts m) (n : Int32) :
      Served parts (m.asked (onStore (push n)))
  | truncate {m : Machine} (h : Served parts m) (size : Nat) :
      Served parts (m.asked (onStore (truncateStack size)))
  | call {m : Machine} (h : Served parts m) {name : String} (hname : ¬Part.Forces parts name) :
      Served parts (m.asked (call name))
  | reload {m : Machine} (h : Served parts m) : Served parts (m.asked reload)

theorem foldl_load (ps : List Program) (m : Machine) :
    ps.foldl load m = { m with code := ps.foldl Code.addProgram m.code } := by
  induction ps generalizing m with
  | nil => rfl
  | cons p ps ih => exact ih (m.load p)

/-- The code is that of the parts, and no memory is larger than it may be. -/
structure WithinBounds (parts : List Part) (m : Machine) : Prop where
  code : ∃ ps, Part.Give parts ps ∧ m.code = ps.foldl Code.addProgram {}
  sizes : Holds (Sized (Part.Bounds parts)) m.store

namespace WithinBounds

/-- Work that keeps the bounds in every state keeps them. -/
theorem onStore {α : Type} {work : Exec α} (h : WithinBounds parts m)
    (hw : Maintains (Sized (Part.Bounds parts)) work) :
    WithinBounds parts (m.asked (onStore work)) := by
  obtain ⟨σ, hs, hσ⟩ := h.sizes
  obtain ⟨τ, hτ, hs'⟩ := hw σ m.store hσ hs
  rw [asked_onStore]
  exact ⟨h.code, τ, hs', hτ⟩

/-- A function that keeps the bounds for any number of commands keeps them wherever it ends. -/
theorem runFunction (h : WithinBounds parts m)
    (hf : ∀ n, Part.KeepsBounds parts m.code n f.ns f.commands) :
    WithinBounds parts (m.asked (runFunction f)) := by
  obtain ⟨gas, heq⟩ := asked_runFunction m f
  rw [heq]
  exact ⟨h.code, run_holds (fun _ hσ => hσ) fun n => hf n m.store h.sizes⟩

end WithinBounds

/-- No memory of an empty store is too large. -/
theorem holds_bounds_empty : Holds (Sized (Part.Bounds parts)) {} := by
  refine ⟨_, Store.models_empty, Tidy.empty, fun id max _ size hsize => ?_⟩
  cases hsize

/-- What the members of the load tag name does not append pages unchecked. -/
theorem not_forces_of_mem_load {ps : List Program} {name : String} (hps : Part.Give parts ps)
    (hname : name ∈ (ps.foldl Code.addProgram {}).tags.members .load) :
    ¬Part.Forces parts name := by
  have hmembers : name ∈ (ps.foldl Code.addProgram {}).tags.load := hname
  rw [hps.load_members] at hmembers
  rcases List.mem_append.1 hmembers with hmem | hmem
  · rcases List.mem_append.1 hmem with hmem | hmem
    · have hload : ¬Part.Forces parts ((Symbol.routine .load).qualifiedName sharedNamespace) :=
        hps.not_forces rfl (by decide)
      rw [List.eq_of_mem_replicate hmem]
      exact hload
    · cases hmem
  · obtain ⟨part, hpart, hname⟩ := List.mem_filterMap.1 hmem
    cases part with
    | library => cases hname
    | module ns m =>
      cases hname
      obtain ⟨p, -, hp⟩ := hps.exists_program hpart
      obtain ⟨c⟩ := exists_compiled hp
      exact hps.not_forces rfl (checkNamespace_eq_ok c.namespaceOk).2

/-- **No memory of a served machine has more pages than it may have.** -/
theorem Served.withinBounds (hparts : Orderly parts)
    (himports : ∀ ns m, .module ns m ∈ parts → NoInternalImports m) (h : Served parts m) :
    WithinBounds parts m := by
  have hwork := Sized.ignoresWork (Part.Bounds parts)
  induction h with
  | @loaded ps hps limit =>
    rw [foldl_load]
    exact ⟨⟨ps, hps, rfl⟩, holds_bounds_empty⟩
  | limited _ limit ih => exact ⟨ih.code, ih.sizes⟩
  | score _ hr n ih => exact ih.onStore (.setScore hwork hr n)
  | push _ n ih => exact ih.onStore (.push hwork n)
  | truncate _ size ih => exact ih.onStore (.truncateStack hwork size)
  | @call m _ name hname ih =>
    rcases asked_call m name with heq | ⟨f, hf, heq⟩
    · rw [heq]
      exact ih
    · obtain ⟨ps, hps, hcode⟩ := ih.code
      rw [heq]
      refine ih.runFunction fun n => ?_
      rw [hcode] at hf ⊢
      exact Part.allKeepBounds hparts himports hps n name f hname hf
  | @reload m _ ih =>
    obtain ⟨ps, hps, hcode⟩ := ih.code
    refine ih.runFunction fun n => ?_
    rw [hcode]
    have hneutral : (Command.callTag .load).isNeutral = true := rfl
    cases n with
    | zero => exact .zero
    | succ n =>
      -- What is prepared is named by the tag alone.
      refine .calls (C := ⟨fun _ => false, fun t => decide (t = .load)⟩) hneutral hwork rfl
        (keeps_neutral hneutral fun _ hσ => hσ) (fun q hq => nomatch hq)
        fun tag htag name hname f hf => ?_
      obtain rfl := of_decide_eq_true htag
      exact Part.allKeepBounds hparts himports hps n name f (not_forces_of_mem_load hps hname) hf

end Machine

end WasmPack
