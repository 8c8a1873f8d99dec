/-
  WasmPack.Proofs.Execution.Recursion

  Runs as recursion on what is called.

  A run keeps the functions under way on a list of its own and never calls
  itself for a callee.  Here the commands of a function run one behind the other,
  and what a command calls runs to its end, by itself, before the next command
  does.  Both come to the same end, with the same count of commands.
-/
import WasmPack.Machine.Run

namespace WasmPack.Machine

/-! ## Ends one behind the other -/

/-- Go on from an end, unless it is a fault. -/
def End.andThen (e : End) (next : Nat → Store → End) : End :=
  match e.outcome with
  | .ok () => next e.gas e.store
  | .error _ => e

/-- The ends that at least `gas` commands have led to. -/
abbrev EndFrom (gas : Nat) := { e : End // gas ≤ e.gas }

namespace EndFrom

variable {gas gas' : Nat}

/-- Go on from an end, unless it is a fault; the commands before it stay counted. -/
def andThen (e : EndFrom gas) (next : (gas' : Nat) → gas ≤ gas' → Store → EndFrom gas') :
    EndFrom gas :=
  match e.1.outcome with
  | .ok () =>
    let next := next e.1.gas e.2 e.1.store
    ⟨next.1, Nat.le_trans e.2 next.2⟩
  | .error _ => e

/-- What more commands have led to, fewer have. -/
def weaken (h : gas ≤ gas') (e : EndFrom gas') : EndFrom gas := ⟨e.1, Nat.le_trans h e.2⟩

theorem val_weaken (h : gas ≤ gas') (e : EndFrom gas') : (e.weaken h).1 = e.1 := rfl

theorem val_andThen {e : EndFrom gas} {next : (gas' : Nat) → gas ≤ gas' → Store → EndFrom gas'}
    {next' : Nat → Store → End} (h : ∀ g hg s, (next g hg s).1 = next' g s) :
    (e.andThen next).1 = e.1.andThen next' := by
  obtain ⟨⟨outcome | ⟨⟩, g, s⟩, hg⟩ := e
  · rfl
  · exact h g hg s

end EndFrom

/-! ## Recursion on what is called -/

mutual

/-- Run commands one behind the other, from a count of commands and a store.  The functions that a
    command calls are all looked up, and then run to their end, before the next command. -/
def runCommands (code : Code) (limit : Nat) (ns : String) (gas : Nat) (cs : List Command)
    (s : Store) : EndFrom gas :=
  match cs with
  | [] => ⟨⟨.ok (), gas, s⟩, Nat.le_refl gas⟩
  | c :: rest =>
    if limit ≤ gas then ⟨⟨.error (.gasExhausted limit), gas + 1, s⟩, Nat.le_succ gas⟩
    else
      match step code.tags ns c s with
      | .error fault s => ⟨⟨.error fault, gas + 1, s⟩, Nat.le_succ gas⟩
      | .ok callees s =>
        match code.functionsOf callees with
        | .error fault => ⟨⟨.error fault, gas + 1, s⟩, Nat.le_succ gas⟩
        | .ok entered =>
          ((runFunctions code limit (gas + 1) entered s).andThen fun gas' _ s =>
            runCommands code limit ns gas' rest s).weaken (Nat.le_succ gas)
-- Whatever runs behind a command has fewer commands left, also if that command has called others.
termination_by (limit - gas, 0)
decreasing_by all_goals (simp only [Prod.lex_def]; omega)

/-- Run functions one behind the other, each to its end. -/
def runFunctions (code : Code) (limit gas : Nat) (fs : List Function) (s : Store) : EndFrom gas :=
  match fs with
  | [] => ⟨⟨.ok (), gas, s⟩, Nat.le_refl gas⟩
  | f :: rest =>
    (runCommands code limit f.ns gas f.commands s).andThen fun gas' _ s =>
      runFunctions code limit gas' rest s
termination_by (limit - gas, fs.length + 1)
decreasing_by all_goals (simp only [Prod.lex_def, List.length_cons, true_and]; omega)

end

/-! ## The list of functions under way -/

variable {code : Code} {limit gas : Nat} {fs gs : List Function} {s : Store}

/-- What is under way further out waits for the end of what is under way further in. -/
theorem run_append : run code limit gas (fs ++ gs) s =
    (run code limit gas fs s).andThen fun gas s => run code limit gas gs s := by
  -- The induction follows the run of the inner functions; the outer ones are only carried along.
  induction gas, fs, s using run.induct code limit with
  | case1 gas s =>
    rw [List.nil_append, run.eq_def code limit gas []]
    rfl
  | case2 gas s ns outer ih => rw [List.cons_append, run, run, ih]
  | case3 gas s ns c rest outer hle =>
    rw [List.cons_append, run, run, if_pos hle, if_pos hle]
    rfl
  | case4 gas s ns c rest outer hle e s₁ hstep =>
    rw [List.cons_append, run, run, if_neg hle, if_neg hle, hstep]
    rfl
  | case5 gas s ns c rest outer hle callees s₁ hstep e hf =>
    rw [List.cons_append, run, run, if_neg hle, if_neg hle, hstep]
    simp only [hf]
    rfl
  | case6 gas s ns c rest outer hle callees s₁ hstep entered hf ih =>
    rw [List.cons_append, run, run, if_neg hle, if_neg hle, hstep]
    simp only [hf]
    rw [← ih, List.append_assoc, List.cons_append]

mutual

theorem runCommands_eq_run (ns : String) (gas : Nat) (cs : List Command) (s : Store) :
    (runCommands code limit ns gas cs s).1 = run code limit gas [⟨ns, cs⟩] s := by
  match cs with
  | [] => rw [runCommands, run, run]
  | c :: rest =>
    rw [runCommands, run]
    by_cases hle : limit ≤ gas
    · rw [if_pos hle, if_pos hle]
    rw [if_neg hle, if_neg hle]
    cases hstep : step code.tags ns c s with
    | error fault s' => rfl
    | ok callees s' =>
      cases hf : code.functionsOf callees with
      | error fault => simp only [hf]
      | ok entered =>
        simp only [hf]
        -- What was called stands in front of the rest of the caller, so it runs to its end first.
        rw [run_append, ← runFunctions_eq_run (gas + 1) entered s', EndFrom.val_weaken]
        exact EndFrom.val_andThen fun gas' h s => runCommands_eq_run ns gas' rest s
termination_by (limit - gas, 0)
decreasing_by all_goals (simp only [Prod.lex_def]; omega)

theorem runFunctions_eq_run (gas : Nat) (fs : List Function) (s : Store) :
    (runFunctions code limit gas fs s).1 = run code limit gas fs s := by
  match fs with
  | [] => rw [runFunctions, run]
  | f :: rest =>
    have happend : run code limit gas (f :: rest) s = _ := @run_append code limit gas [f] rest s
    rw [runFunctions, happend, ← runCommands_eq_run f.ns gas f.commands s]
    exact EndFrom.val_andThen fun gas' h s => runFunctions_eq_run gas' rest s
termination_by (limit - gas, fs.length + 1)
decreasing_by all_goals (simp only [Prod.lex_def, List.length_cons, true_and]; omega)

end

/-- Whatever is under way, each function with the commands it still has to run, and from whatever
    count of commands: the run ends as the functions do that run one behind the other, with all that
    they call.  What is under way further out goes on where the run of what is further in has ended,
    if that was without a fault. -/
theorem run_in_order (code : Code) (limit gas : Nat) (frames outer : List Function) (s : Store) :
    run code limit gas frames s = (runFunctions code limit gas frames s).1 ∧
      run code limit gas (frames ++ outer) s =
        (run code limit gas frames s).andThen fun gas s => run code limit gas outer s :=
  ⟨(runFunctions_eq_run gas frames s).symm, run_append⟩

end WasmPack.Machine
