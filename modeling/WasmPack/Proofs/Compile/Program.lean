/-
  WasmPack.Proofs.Compile.Program

  What the program of a module is made of, and what follows for its names.
-/
import WasmPack.Compile.Module
import WasmPack.Proofs.Execution.Names
import WasmPack.Proofs.State.Basic

namespace WasmPack.Compile

open Wasm

variable {α β : Type}

/-! ## Successes -/

/-- A success of a sequence of two steps of code generation is a success of each. -/
theorem gen_bind_eq_ok {x : Gen α} {f : α → Gen β} {pool pool' : Pool} {b : β} :
    (x >>= f) pool = .ok (b, pool') ↔
      ∃ a pool₁, x pool = .ok (a, pool₁) ∧ f a pool₁ = .ok (b, pool') := by
  show (x pool >>= fun r => f r.1 r.2) = _ ↔ _
  rw [except_bind_eq_ok]
  constructor
  · rintro ⟨⟨a, pool₁⟩, hx, hf⟩
    exact ⟨a, pool₁, hx, hf⟩
  · rintro ⟨a, pool₁, hx, hf⟩
    exact ⟨(a, pool₁), hx, hf⟩

/-- A step that may refuse the module adds no fragment. -/
theorem gen_lift_eq_ok {x : Except CompileError α} {pool pool' : Pool} {a : α} :
    (x : Gen α) pool = .ok (a, pool') ↔ x = .ok a ∧ pool' = pool := by
  cases x with
  | error e =>
    constructor
    · intro h
      cases h
    · rintro ⟨⟨⟩, -⟩
  | ok b =>
    constructor
    · intro h
      cases h
      exact ⟨rfl, rfl⟩
    · rintro ⟨⟨⟩, rfl⟩
      rfl

theorem gen_pure_eq_ok {pool pool' : Pool} {a b : α} :
    (pure a : Gen α) pool = .ok (b, pool') ↔ b = a ∧ pool' = pool := by
  constructor
  · intro h
    cases h
    exact ⟨rfl, rfl⟩
  · rintro ⟨rfl, rfl⟩
    rfl

/-! ## Namespaces -/

theorem checkNamespace_eq_ok {ns : String} (h : checkNamespace ns = .ok ()) :
    ns ≠ sharedNamespace ∧ ':' ∉ ns.toList := by
  unfold checkNamespace at h
  split at h
  · cases h
  split at h
  · cases h
  · rename_i hn
    simp only [Bool.or_eq_true, decide_eq_true_eq, Bool.not_eq_true', not_or, Bool.not_eq_false]
      at hn
    refine ⟨hn.1.2, fun hc => ?_⟩
    have hchar := List.all_eq_true.1 hn.2 ':' hc
    revert hchar
    decide

/-! ## Programs -/

/-- What a module becomes, piece by piece. -/
structure Compiled (ns : String) (m : Module) (p : Program) where
  spaces : IndexSpaces
  functions : List Sequence
  init : List Command
  pool : Pool
  namespaceOk : checkNamespace ns = .ok ()
  typesOk : checkTypes m = .ok ()
  spacesOk : IndexSpaces.ofModule m = .ok spaces
  lowered : lowerModule spaces m #[] = .ok ((functions, init), pool)
  program : p = {
    ns
    sequences := functions ++ allMemorySequences ns spaces ++ swapOutSequences ns spaces ++
      allGlobalSequences spaces ++ exportSequences spaces m ++ fragmentSequences pool ++
      [⟨.init, init⟩]
    tags := (swapOutSequences ns spaces).map fun s => (.swapOut, s.symbol) }

/-- A module that can be compiled has all the pieces. -/
theorem exists_compiled {ns : String} {m : Module} {p : Program}
    (h : compileModule ns m = .ok p) : Nonempty (Compiled ns m p) := by
  unfold compileModule at h
  obtain ⟨_, hns, h⟩ := except_bind_eq_ok.1 h
  obtain ⟨_, htypes, h⟩ := except_bind_eq_ok.1 h
  obtain ⟨spaces, hspaces, h⟩ := except_bind_eq_ok.1 h
  obtain ⟨⟨⟨functions, init⟩, pool⟩, hlower, h⟩ := except_bind_eq_ok.1 h
  cases h
  exact ⟨⟨spaces, functions, init, pool, hns, htypes, hspaces, hlower, rfl⟩⟩

namespace Compiled

variable {ns : String} {m : Module} {p : Program}

theorem ns_eq (c : Compiled ns m p) : p.ns = ns := by
  rw [c.program]

/-- Such pieces are those of the program that compilation makes. -/
theorem compile_eq (c : Compiled ns m p) : compileModule ns m = .ok p := by
  unfold compileModule
  refine except_bind_eq_ok.2 ⟨(), c.namespaceOk, except_bind_eq_ok.2 ⟨(), c.typesOk,
    except_bind_eq_ok.2 ⟨c.spaces, c.spacesOk, except_bind_eq_ok.2 ⟨_, c.lowered, ?_⟩⟩⟩⟩
  exact congrArg Except.ok c.program.symm

end Compiled

end WasmPack.Compile
