/-
  WasmPack.Proofs.Execution.Runs

  Whole runs as a relation on states.

  `Runs` follows the functions under way as `run` does, but without counting
  commands and without looking at how a store keeps its values.  What it derives,
  a run does in some number of commands, if its limit allows so many.
-/
import WasmPack.Machine.Run
import WasmPack.Proofs.State.Steps

namespace WasmPack.Machine

variable {code : Code} {fs gs outer entered : List Function} {f : Function} {ns name : String}
  {c : Command} {rest cs ds : List Command} {callees : List String} {σ σ₁ σ₂ σ' : State}
  {r : Except Fault Unit} {e : Fault}

/-- Running the functions under way, the innermost first, from one state to another, without a
    fault or up to one. -/
inductive Runs (code : Code) : List Function → State → Except Fault Unit → State → Prop where
  | done {σ : State} : Runs code [] σ (.ok ()) σ
  | leave {ns : String} {outer : List Function} {σ σ' : State} {r : Except Fault Unit}
      (h : Runs code outer σ r σ') : Runs code (⟨ns, []⟩ :: outer) σ r σ'
  | step {ns : String} {c : Command} {rest : List Command} {outer entered : List Function}
      {callees : List String} {σ σ₁ σ' : State} {r : Except Fault Unit}
      (hs : Steps code.tags ns c σ callees σ₁) (hf : code.functionsOf callees = .ok entered)
      (h : Runs code (entered ++ ⟨ns, rest⟩ :: outer) σ₁ r σ') :
      Runs code (⟨ns, c :: rest⟩ :: outer) σ r σ'
  | fault {ns : String} {c : Command} {rest : List Command} {outer : List Function} {σ σ' : State}
      {e : Fault} (hs : Fails σ (Machine.step code.tags ns c) e σ') :
      Runs code (⟨ns, c :: rest⟩ :: outer) σ (.error e) σ'

/-! ## Runs -/

/-- How a run ends that would need `n` commands: as derived if the limit allows so many, and else
    at the limit. -/
def EndsAs (r : Except Fault Unit) (σ' : State) (limit gas n : Nat) (out : End) : Prop :=
  (gas + n ≤ limit ∧ out.outcome = r ∧ out.gas = gas + n ∧ out.store.Models σ') ∨
    (limit < gas + n ∧ out.outcome = .error (.gasExhausted limit))

/-- A run does what is derived. -/
theorem Runs.ends (h : Runs code fs σ r σ') :
    ∃ n, ∀ s, s.Models σ → ∀ limit gas, gas ≤ limit →
      EndsAs r σ' limit gas n (run code limit gas fs s) := by
  -- `n` counts the steps of the derivation, the one that faults among them.
  induction h with
  | done =>
    refine ⟨0, fun s hs limit gas hle => ?_⟩
    rw [Machine.run]
    exact .inl ⟨hle, rfl, rfl, hs⟩
  | leave h ih =>
    obtain ⟨n, hn⟩ := ih
    refine ⟨n, fun s hs limit gas hle => ?_⟩
    rw [Machine.run]
    exact hn s hs limit gas hle
  | @step ns c rest outer entered callees σ σ₁ σ' r hs hf h ih =>
    obtain ⟨n, hn⟩ := ih
    refine ⟨n + 1, fun s hm limit gas hle => ?_⟩
    obtain ⟨s₁, hstep, hm₁⟩ := hs s hm
    rw [Machine.run]
    by_cases hlt : limit ≤ gas
    · rw [if_pos hlt]
      exact .inr ⟨by omega, rfl⟩
    · rw [if_neg hlt, hstep]
      simp only [hf]
      obtain ⟨hle', hr, hg, hm'⟩ | ⟨hlt', hr⟩ := hn s₁ hm₁ limit (gas + 1) (by omega)
      · exact .inl ⟨by omega, hr, by omega, hm'⟩
      · exact .inr ⟨by omega, hr⟩
  | @fault ns c rest outer σ σ' e hs =>
    refine ⟨1, fun s hm limit gas hle => ?_⟩
    obtain ⟨s', hstep, hm'⟩ := hs s hm
    rw [Machine.run]
    by_cases hlt : limit ≤ gas
    · rw [if_pos hlt]
      exact .inr ⟨by omega, rfl⟩
    · rw [if_neg hlt, hstep]
      exact .inl ⟨by omega, rfl, rfl, hm'⟩

/-- What is derived happens in some number of commands, for every limit that allows so many. -/
theorem Runs.run_of_le (h : Runs code fs σ r σ') :
    ∃ n, ∀ s, s.Models σ → ∀ limit, n ≤ limit →
      ∃ s', Machine.run code limit 0 fs s = ⟨r, n, s'⟩ ∧ s'.Models σ' := by
  obtain ⟨n, hn⟩ := h.ends
  refine ⟨n, fun s hs limit hle => ?_⟩
  obtain ⟨-, hr, hg, hm⟩ | ⟨hlt, -⟩ := hn s hs limit 0 (Nat.zero_le _)
  · refine ⟨(Machine.run code limit 0 fs s).store, ?_, hm⟩
    rw [Nat.zero_add] at hg
    rw [← hr, ← hg]
  · omega

/-- A run that does not end at its limit does what is derived. -/
theorem Runs.of_run (h : Runs code fs σ r σ') {s s' : Store} (hs : s.Models σ) {limit gas g : Nat}
    {r' : Except Fault Unit} (hle : gas ≤ limit)
    (hrun : Machine.run code limit gas fs s = ⟨r', g, s'⟩)
    (hr' : ∀ l, r' ≠ .error (.gasExhausted l)) : r' = r ∧ s'.Models σ' := by
  obtain ⟨n, hn⟩ := h.ends
  have hend := hn s hs limit gas hle
  rw [hrun] at hend
  obtain ⟨-, hr, -, hm⟩ | ⟨-, hr⟩ := hend
  · exact ⟨hr, hm⟩
  · exact absurd hr (hr' limit)

/-! ## Putting runs together -/

/-- What becomes of a run that ended before the functions `gs`: without a fault they run from where
    it ended, and a fault stands as it is. -/
inductive Resumes (code : Code) (gs : List Function) :
    Except Fault Unit → State → Except Fault Unit → State → Prop where
  | ok {σ σ' : State} {r : Except Fault Unit} (h : Runs code gs σ r σ') :
      Resumes code gs (.ok ()) σ r σ'
  | error {σ : State} {e : Fault} : Resumes code gs (.error e) σ (.error e) σ

/-- Functions under way one behind the other, whether or not the first ones end with a fault. -/
theorem Runs.resumed {r₁ : Except Fault Unit} (h : Runs code fs σ r₁ σ₁)
    (h' : Resumes code gs r₁ σ₁ r σ') : Runs code (fs ++ gs) σ r σ' := by
  induction h with
  | done =>
    cases h' with
    | ok h' => exact h'
  | leave h ih => exact .leave (ih h')
  | step hs hf h ih =>
    have hstep := ih h'
    rw [List.append_assoc] at hstep
    exact .step hs hf hstep
  | fault hs =>
    cases h' with
    | error => exact .fault hs

/-- Functions under way one behind the other. -/
theorem Runs.append (h : Runs code fs σ (.ok ()) σ₁) (h' : Runs code gs σ₁ r σ') :
    Runs code (fs ++ gs) σ r σ' := h.resumed (.ok h')

/-- A fault ends the functions further out as well. -/
theorem Runs.append_fault (h : Runs code fs σ (.error e) σ') :
    Runs code (fs ++ gs) σ (.error e) σ' := h.resumed .error

/-- Commands behind those of the outermost function under way. -/
theorem Runs.extend_last {r₁ : Except Fault Unit} (pre : List Function)
    (h : Runs code (pre ++ [⟨ns, cs⟩]) σ r₁ σ₁)
    (h' : Resumes code (⟨ns, ds⟩ :: outer) r₁ σ₁ r σ') :
    Runs code (pre ++ ⟨ns, cs ++ ds⟩ :: outer) σ r σ' := by
  -- The functions called meanwhile join `pre`, so the induction is over every `pre` and `cs`. Each
  -- case asks whether the function that acts is the outermost one, whose commands are extended.
  generalize hfs : pre ++ [⟨ns, cs⟩] = frames at h
  induction h generalizing pre cs with
  | done => exact absurd hfs (by simp)
  | leave h ih =>
    cases pre with
    | nil =>
      rw [List.nil_append, List.cons.injEq, Function.mk.injEq] at hfs
      obtain ⟨⟨rfl, rfl⟩, rfl⟩ := hfs
      exact h.resumed h'
    | cons g pre =>
      rw [List.cons_append, List.cons.injEq] at hfs
      obtain ⟨rfl, rfl⟩ := hfs
      exact .leave (ih _ h' rfl)
  | @step ns' c rest outer' entered callees σ₀ σ₂ σ₃ r₀ hs hf h ih =>
    cases pre with
    | nil =>
      rw [List.nil_append, List.cons.injEq, Function.mk.injEq] at hfs
      obtain ⟨⟨rfl, rfl⟩, rfl⟩ := hfs
      exact .step hs hf (ih _ h' rfl)
    | cons g pre =>
      rw [List.cons_append, List.cons.injEq] at hfs
      obtain ⟨rfl, rfl⟩ := hfs
      refine .step hs hf ?_
      have hassoc : (entered ++ ⟨ns', rest⟩ :: pre) ++ [⟨ns, cs⟩] =
          entered ++ ⟨ns', rest⟩ :: (pre ++ [⟨ns, cs⟩]) := List.append_assoc _ _ _
      have hstep := ih _ h' hassoc
      rw [List.append_assoc] at hstep
      exact hstep
  | fault hs =>
    cases h'
    cases pre with
    | nil =>
      rw [List.nil_append, List.cons.injEq, Function.mk.injEq] at hfs
      obtain ⟨⟨rfl, rfl⟩, rfl⟩ := hfs
      exact .fault hs
    | cons g pre =>
      rw [List.cons_append, List.cons.injEq] at hfs
      obtain ⟨rfl, rfl⟩ := hfs
      exact .fault hs

/-- Commands in sequence. -/
theorem Runs.seq (h : Runs code [⟨ns, cs⟩] σ (.ok ()) σ₁)
    (h' : Runs code (⟨ns, ds⟩ :: outer) σ₁ r σ') :
    Runs code (⟨ns, cs ++ ds⟩ :: outer) σ r σ' := Runs.extend_last [] h (.ok h')

/-- A fault in the first commands. -/
theorem Runs.seq_fault (h : Runs code [⟨ns, cs⟩] σ (.error e) σ') :
    Runs code (⟨ns, cs ++ ds⟩ :: outer) σ (.error e) σ' :=
  Runs.extend_last [] h .error

/-- A command that calls nothing, and the commands behind it. -/
theorem Runs.plain (hs : Steps code.tags ns c σ [] σ₁)
    (h : Runs code (⟨ns, rest⟩ :: outer) σ₁ r σ') :
    Runs code (⟨ns, c :: rest⟩ :: outer) σ r σ' := .step hs rfl h

/-- A command that calls one function, and the commands behind it. -/
theorem Runs.call (hs : Steps code.tags ns c σ [name] σ₁) (hf : code.function name = .ok f)
    (hbody : Runs code [f] σ₁ (.ok ()) σ₂) (h : Runs code (⟨ns, rest⟩ :: outer) σ₂ r σ') :
    Runs code (⟨ns, c :: rest⟩ :: outer) σ r σ' := by
  have hfs : code.functionsOf [name] = .ok [f] := by
    rw [Code.functionsOf, hf]
    rfl
  exact .step hs hfs (hbody.append h)

/-- A command that calls one function, which ends with a fault. -/
theorem Runs.call_fault (hs : Steps code.tags ns c σ [name] σ₁) (hf : code.function name = .ok f)
    (hbody : Runs code [f] σ₁ (.error e) σ') :
    Runs code (⟨ns, c :: rest⟩ :: outer) σ (.error e) σ' := by
  have hfs : code.functionsOf [name] = .ok [f] := by
    rw [Code.functionsOf, hf]
    rfl
  exact .step hs hfs hbody.append_fault

/-- A guard that holds lets the run go as without it. -/
theorem Runs.guarded {g : Modifier} (hg : σ.allows g = some true)
    (h : Runs code (⟨ns, c :: rest⟩ :: outer) σ r σ') :
    Runs code (⟨ns, c.guarded g :: rest⟩ :: outer) σ r σ' := by
  cases h with
  | step hs hf h => exact .step (hs.guarded hg) hf h
  | fault hs => exact .fault (Faults.guarded hg hs)

/-- A guard that does not hold lets the run go on behind the command. -/
theorem Runs.blocked {g : Modifier} (hg : σ.allows g = some false)
    (h : Runs code (⟨ns, rest⟩ :: outer) σ r σ') :
    Runs code (⟨ns, c.guarded g :: rest⟩ :: outer) σ r σ' := .plain (.blocked hg) h

theorem Runs.nil : Runs code [⟨ns, []⟩] σ (.ok ()) σ := .leave .done

end WasmPack.Machine
