/-
  WasmPack.Proofs.Compile.Functions

  The functions of a module: from which entry the sequence of each comes, and
  which stretch of the pool its fragments are.
-/
import WasmPack.Compile.Module
import WasmPack.Proofs.Compile.Fragments

namespace WasmPack.Compile

open Wasm

variable {α β : Type} {spaces : IndexSpaces} {pool pool' : Pool} {cs : List Command} {ns : String}
  {m : Module} {p : Program} {s : Sequence} {i : Nat} {entry : FuncEntry}

/-! ## Growth -/

/-- Steps that add fragments, one for each entry. -/
theorem Extends.of_mapM {f : α → Gen β}
    (hf : ∀ {x pool y pool'}, f x pool = .ok (y, pool') → Extends pool pool') {xs : List α}
    {ys : List β} (h : xs.mapM f pool = .ok (ys, pool')) : Extends pool pool' ∧
      ∀ (j : Nat) (y : β), ys[j]? = some y → ∃ x pool₁ pool₂, xs[j]? = some x ∧
        f x pool₁ = .ok (y, pool₂) ∧ Extends pool₂ pool' := by
  induction xs generalizing pool ys with
  | nil =>
    rw [List.mapM_nil] at h
    obtain ⟨rfl, rfl⟩ := gen_pure_eq_ok.1 h
    exact ⟨.refl _, fun j y hy => absurd hy (by simp)⟩
  | cons x xs ih =>
    rw [List.mapM_cons] at h
    obtain ⟨y, pool₁, hy, h⟩ := gen_bind_eq_ok.1 h
    obtain ⟨ys', pool₂, hys, h⟩ := gen_bind_eq_ok.1 h
    obtain ⟨rfl, rfl⟩ := gen_pure_eq_ok.1 h
    obtain ⟨hrest, hall⟩ := ih hys
    refine ⟨(hf hy).trans hrest, fun j z hz => ?_⟩
    cases j with
    | zero =>
      cases hz
      exact ⟨x, pool, pool₁, rfl, hy, hrest⟩
    | succ j => exact hall j z hz

theorem extends_lowerFunction {type : FuncType} {locals : List ValueType} {body : Expr}
    (h : lowerFunction spaces type locals body pool = .ok (cs, pool')) : Extends pool pool' := by
  obtain ⟨b, hb, -⟩ := lowerFunction_eq_ok.1 h
  exact extends_lowerList _ _ _ _ body hb

theorem extends_funcCommands (h : funcCommands spaces entry pool = .ok (cs, pool')) :
    Extends pool pool' := by
  cases entry with
  | defined type locals body => exact extends_lowerFunction h
  | imported type source =>
    obtain ⟨-, rfl⟩ := gen_pure_eq_ok.1 h
    exact .refl _

theorem extends_lowerConst {init : Expr} (h : lowerConst spaces init pool = .ok (cs, pool')) :
    Extends pool pool' := by
  obtain ⟨b, pool₁, hb, h⟩ := gen_bind_eq_ok.1 h
  obtain ⟨-, rfl⟩ := gen_pure_eq_ok.1 h
  exact extends_lowerList _ _ _ _ init (lowerBlock_eq_ok.1 hb).2

theorem extends_initGlobal {index : UInt32} {entry : GlobalEntry}
    (h : initGlobal spaces index entry pool = .ok (cs, pool')) : Extends pool pool' := by
  cases entry with
  | defined type init =>
    obtain ⟨cs', pool₁, hinit, h⟩ := gen_bind_eq_ok.1 h
    obtain ⟨-, rfl⟩ := gen_pure_eq_ok.1 h
    exact extends_lowerConst hinit
  | imported type source =>
    obtain ⟨-, rfl⟩ := gen_pure_eq_ok.1 h
    exact .refl _

theorem extends_initData {segment : Data} (h : initData spaces segment pool = .ok (cs, pool')) :
    Extends pool pool' := by
  obtain ⟨-, h⟩ := gen_discard_bind_eq_ok.1 h
  obtain ⟨offset, pool₁, hoffset, h⟩ := gen_bind_eq_ok.1 h
  obtain ⟨-, rfl⟩ := gen_pure_eq_ok.1 h
  exact extends_lowerConst hoffset

namespace Compiled

variable (c : Compiled ns m p)

include c

/-- The functions come first; their fragments stay as they are. -/
theorem exists_funcSequences : ∃ pool, funcSequences c.spaces #[] = .ok (c.functions, pool) ∧
    Extends pool c.pool := by
  have hlowered := c.lowered
  unfold lowerModule at hlowered
  obtain ⟨functions, pool, hfunctions, hlowered⟩ := gen_bind_eq_ok.1 hlowered
  obtain ⟨globals, pool₁, hglobals, hlowered⟩ := gen_bind_eq_ok.1 hlowered
  obtain ⟨data, pool₂, hdata, hlowered⟩ := gen_bind_eq_ok.1 hlowered
  obtain ⟨start, pool₃, hstart, hlowered⟩ := gen_bind_eq_ok.1 hlowered
  obtain ⟨heq, hpool⟩ := gen_pure_eq_ok.1 hlowered
  obtain ⟨-, rfl⟩ := gen_lift_eq_ok.1 hstart
  rw [(Prod.mk.inj heq).1, hpool]
  obtain ⟨parts, pool₄, hparts, hglobals⟩ := gen_bind_eq_ok.1 hglobals
  obtain ⟨-, rfl⟩ := gen_pure_eq_ok.1 hglobals
  exact ⟨pool, hfunctions, (Extends.of_mapM extends_initGlobal hparts).1.trans
    (Extends.of_mapM extends_initData hdata).1⟩

/-- The sequence of a function has the commands of its entry. -/
theorem exists_entry {s : Sequence} (hs : c.functions[i]? = some s) :
    ∃ entry pool pool', c.spaces.funcs[i]? = some entry ∧ s.symbol = .func (UInt32.ofNat i) ∧
      funcCommands c.spaces entry pool = .ok (s.commands, pool') ∧ Extends pool' c.pool := by
  obtain ⟨pool, hfunctions, hpool⟩ := c.exists_funcSequences
  have hone : ∀ {x : FuncEntry × Nat} {pool₁ : Pool} {t : Sequence} {pool₂ : Pool},
      (do return ⟨.func (UInt32.ofNat x.2), ← funcCommands c.spaces x.1⟩ : Gen Sequence) pool₁ =
        .ok (t, pool₂) →
      t.symbol = .func (UInt32.ofNat x.2) ∧
        funcCommands c.spaces x.1 pool₁ = .ok (t.commands, pool₂) := by
    intro x pool₁ t pool₂ h
    obtain ⟨cs, pool₃, hcs, h⟩ := gen_bind_eq_ok.1 h
    obtain ⟨rfl, rfl⟩ := gen_pure_eq_ok.1 h
    exact ⟨rfl, hcs⟩
  obtain ⟨-, hall⟩ := Extends.of_mapM (fun h => extends_funcCommands (hone h).2) hfunctions
  obtain ⟨⟨entry, j⟩, pool₁, pool₂, hentry, h, hextends⟩ := hall i s hs
  rw [List.getElem?_zipIdx] at hentry
  obtain ⟨entry, hget, heq⟩ := Option.map_eq_some_iff.1 hentry
  cases heq
  rw [Nat.zero_add] at h
  refine ⟨entry, pool₁, pool₂, ?_, (hone h).1, (hone h).2, hextends.trans hpool⟩
  rwa [Array.getElem?_toList] at hget

end Compiled

end WasmPack.Compile
