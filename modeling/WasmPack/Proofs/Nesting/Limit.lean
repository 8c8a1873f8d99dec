/-
  WasmPack.Proofs.Nesting.Limit

  Decoding and code generation bound the nesting of constructs alike.  What has
  been decoded keeps the limit of code generation, and code generation gives no
  commands for code whose live constructs exceed the limit of decoding.
-/
import WasmPack.Proofs.Nesting.Chain
import WasmPack.Proofs.Nesting.Refusal
import WasmPack.Proofs.Reading.Module

namespace WasmPack

open Wasm

/-! ## Decoding -/

/-- What is decoded belongs to the grammar. -/
theorem Binary.moduleForm_of_decode {bytes : Array UInt8} {m : Module} (h : decode bytes = .ok m) :
    Grammar.ModuleForm bytes.toList m := by
  have hread := Finishes.module { input := bytes } m (Nat.zero_le _) rfl
  have hahead : Cursor.ahead { input := bytes } = bytes.toList := List.drop_zero
  rw [hahead] at hread
  unfold decode at h
  split at h
  · rename_i c' hr
    cases h
    exact hread.1 ⟨c', hr⟩
  · cases h

namespace Compile

variable {scope : Scope} {depth : Nat} {labels : List Label} {height : UInt32}
  {pool pool' : Pool} {b : Block} {step : Step} {i : Instr} {front back body : Expr} {n : Nat}

/-! ## Code generation -/

/-- Only instructions behind which nothing is reached end a list. -/
theorem stops_of_flow_eq_stop {target : Nat}
    (h : lowerInstr scope depth labels height i pool = .ok (step, pool'))
    (hflow : step.flow = .stop target) : i.stops = true := by
  have hescape : ∀ {least height}, escape depth least height ≠ .stop target := by
    intro least height heq
    unfold escape at heq
    split at heq <;> cases heq
  cases i with
  | unreachable | br label | brTable table default | ret => rfl
  | block type body =>
    obtain ⟨_, b, _, -, -, -, -, -, rfl⟩ := lowerInstr_block.1 h
    exact absurd hflow hescape
  | loop type body =>
    obtain ⟨_, b, _, _, -, -, -, -, -, h⟩ := lowerInstr_loop.1 h
    obtain ⟨-, rfl, -⟩ | ⟨-, rfl, -⟩ := lowerLoop_eq_ok.1 h
    · exact absurd hflow hescape
    · exact absurd hflow hescape
  | ifElse type consequent alternative =>
    obtain ⟨_, _, _, _, _, _, _, _, _, -, -, -, -, -, -, -, -, -, rfl⟩ := lowerInstr_ifElse.1 h
    exact absurd hflow hescape
  | brIf label =>
    rw [lowerInstr_brIf] at h
    obtain ⟨_, _, -, -, rfl⟩ := lowerBrIf_eq_ok.1 h
    cases hflow
  | _ =>
    obtain ⟨_, _, -, rfl, -⟩ := (lowerInstr_straight rfl).1 h
    cases hflow

/-- Every instruction that nothing in front of it hides gets its commands. -/
theorem exists_lowerInstr_of_lowerList (hfront : ∀ j ∈ front, j.stops = false)
    (h : lowerList scope depth labels height (front ++ i :: back) pool = .ok (b, pool')) :
    ∃ height pool step pool', lowerInstr scope depth labels height i pool = .ok (step, pool') := by
  induction front generalizing height pool b pool' with
  | nil =>
    obtain ⟨step, pool₁, hstep, -⟩ := lowerList_cons.1 h
    exact ⟨height, pool, step, pool₁, hstep⟩
  | cons j front ih =>
    have hrest := fun k hk => hfront k (.tail _ hk)
    obtain ⟨step, pool₁, hstep, hcontinues⟩ := lowerList_cons.1 h
    cases hcontinues with
    | next _ hlist => exact ih hrest hlist
    | last _ hnil => exact absurd hnil (by simp)
    | guarded _ _ hlist => exact ih hrest hlist
    | stop hflow =>
      have hstops := stops_of_flow_eq_stop hstep hflow
      rw [hfront j (.head _)] at hstops
      cases hstops

/-- The code inside a construct gets its commands one level deeper, where the limit is checked. -/
theorem exists_lowerList_of_lowerInstr (hbody : body ∈ i.bodies)
    (h : lowerInstr scope depth labels height i pool = .ok (step, pool')) :
    depth + 1 ≤ maxNesting ∧ ∃ labels height pool b pool',
      lowerList scope (depth + 1) labels height body pool = .ok (b, pool') := by
  cases i with
  | block type body' =>
    obtain rfl := List.mem_singleton.1 hbody
    obtain ⟨_, b, _, -, -, hnest, hb, -⟩ := lowerInstr_block.1 h
    exact ⟨hnest, _, _, _, _, _, hb⟩
  | loop type body' =>
    obtain rfl := List.mem_singleton.1 hbody
    obtain ⟨_, b, _, _, -, -, hnest, hb, -⟩ := lowerInstr_loop.1 h
    exact ⟨hnest, _, _, _, _, _, hb⟩
  | ifElse type consequent alternative =>
    obtain ⟨_, _, _, _, _, _, _, _, _, -, -, -, hnest, hfirst, hsecond, -⟩ :=
      lowerInstr_ifElse.1 h
    obtain rfl | hbody := List.mem_cons.1 hbody
    · exact ⟨hnest, _, _, _, _, _, hfirst⟩
    · obtain rfl := List.mem_singleton.1 hbody
      exact ⟨hnest, _, _, _, _, _, hsecond⟩
  | _ => cases hbody

/-- Live constructs that are generated keep the limit, those around them included. -/
theorem le_maxNesting_of_lowerList (hchain : Nested (fun j => j.stops = false) n body)
    (hdepth : depth ≤ maxNesting)
    (h : lowerList scope depth labels height body pool = .ok (b, pool')) :
    depth + n ≤ maxNesting := by
  induction hchain generalizing depth labels height pool b pool' with
  | nil => exact hdepth
  | cons hfront hbody _ ih =>
    obtain ⟨_, _, _, _, hstep⟩ := exists_lowerInstr_of_lowerList hfront h
    obtain ⟨hnest, _, _, _, _, _, hlist⟩ := exists_lowerList_of_lowerInstr hbody hstep
    have := ih hnest hlist
    omega
  | inside hfront hbody _ ih =>
    obtain ⟨_, _, _, _, hstep⟩ := exists_lowerInstr_of_lowerList hfront h
    obtain ⟨hnest, _, _, _, _, _, hlist⟩ := exists_lowerList_of_lowerInstr hbody hstep
    have := ih hnest hlist
    omega

/-! ## The two limits -/

/-- **Nesting.** What is decoded is never refused for its nesting and has no chain of 513
    constructs, each inside the one before; and no commands come of a body with such a chain of
    live constructs. -/
theorem nesting_limits_agree :
    (∀ bytes m, Binary.decode bytes = .ok m →
      (∀ ns, compileModule ns m ≠ .error (.limitExceeded .nesting)) ∧
        ∀ body ∈ m.expressions, ¬ Nested (fun _ => True) 513 body) ∧
    ∀ spaces type locals body, Nested (fun j => j.stops = false) 513 body →
      ∀ pool r, lowerFunction spaces type locals body pool ≠ .ok r := by
  constructor
  · intro bytes m h
    have hnesting : ∀ body ∈ m.expressions, nestingOf body ≤ maxNesting := fun _ hbody =>
      (Binary.moduleForm_of_decode h).nesting_le hbody
    refine ⟨fun ns => compileModule_ne_tooDeep ns fun body hbody =>
      hnesting body (List.mem_append_left _ hbody), fun body hbody hchain => ?_⟩
    exact absurd (hchain.le_nestingOf.trans (hnesting body hbody)) (by decide)
  · rintro spaces type locals body hchain pool ⟨cs, pool'⟩ h
    obtain ⟨b, hb, -⟩ := lowerFunction_eq_ok.1 h
    exact absurd (le_maxNesting_of_lowerList hchain (Nat.zero_le _) hb) (by decide)

/-- Blocks with nothing in them but one another. -/
def nestedBlocks : Nat → Expr
  | 0 => []
  | n + 1 => [.block .empty (nestedBlocks n)]

theorem nested_nestedBlocks {P : Instr → Prop} (n : Nat) : Nested P n (nestedBlocks n) := by
  induction n with
  | zero => exact .nil []
  | succ n ih =>
    have hbody : nestedBlocks n ∈ (Instr.block .empty (nestedBlocks n)).bodies :=
      List.mem_singleton_self _
    exact .cons (List.forall_mem_nil _) hbody ih

/-- The bytes of a module whose function is a block in a block. -/
def blockInBlockBytes : Array UInt8 :=
  #[0x00, 0x61, 0x73, 0x6d, 0x01, 0x00, 0x00, 0x00,
    0x01, 0x04, 0x01, 0x60, 0x00, 0x00,
    0x03, 0x02, 0x01, 0x00,
    0x0a, 0x0a, 0x01, 0x08, 0x00, 0x02, 0x40, 0x02, 0x40, 0x0b, 0x0b, 0x0b]

theorem nesting_limits_agree_blocks :
    (∃ m, Binary.decode blockInBlockBytes = .ok m ∧
      compileModule "demo" m ≠ .error (.limitExceeded .nesting) ∧
      ∀ body ∈ m.expressions, ¬ Nested (fun _ => True) 513 body) ∧
    ∀ r, lowerFunction {} ⟨[], []⟩ [] (nestedBlocks 513) #[] ≠ .ok r := by
  have hdecodes : (Binary.decode blockInBlockBytes).isOk = true := by decide +kernel
  refine ⟨?_, nesting_limits_agree.2 _ _ _ _ (nested_nestedBlocks 513) _⟩
  cases h : Binary.decode blockInBlockBytes with
  | error e =>
    rw [h] at hdecodes
    cases hdecodes
  | ok m =>
    have hlimits := nesting_limits_agree.1 _ _ h
    exact ⟨m, rfl, hlimits.1 "demo", hlimits.2⟩

end Compile

end WasmPack
