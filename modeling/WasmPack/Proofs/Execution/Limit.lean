/-
  WasmPack.Proofs.Execution.Limit

  What a limit does to a run: it cuts the run short, and nothing else.  A run
  that ends before its limit ends in the same way under every higher one; a run
  that comes to its limit has executed the first commands of the run under the
  higher one, as many as its limit allows.
-/
import WasmPack.Machine.Basic
import WasmPack.Proofs.State.Faults

namespace WasmPack.Machine

variable {code : Code} {limit limit' gas : Nat} {frames : List Function} {s : Store}

/-! ## Runs with a log -/

/-- A command that has been executed: the namespace of its module, and the store behind it. -/
structure Executed where
  ns : String
  command : Command
  store : Store

/-- The commands that a run has executed, in their order, and how it has ended. -/
structure Log where
  commands : List Executed
  last : End

/-- The log with a command in front. -/
def Log.behind (log : Log) (x : Executed) : Log := ⟨x :: log.commands, log.last⟩

/-- Run functions to their end, and write down what is executed.  A command that ends in a fault has
    been executed, one beyond the limit has not. -/
def logged (code : Code) (limit gas : Nat) (frames : List Function) (s : Store) : Log :=
  match frames with
  | [] => ⟨[], ⟨.ok (), gas, s⟩⟩
  | ⟨_, []⟩ :: outer => logged code limit gas outer s
  | ⟨ns, c :: rest⟩ :: outer =>
    if limit ≤ gas then ⟨[], ⟨.error (.gasExhausted limit), gas + 1, s⟩⟩
    else
      match step code.tags ns c s with
      | .error fault s => ⟨[⟨ns, c, s⟩], ⟨.error fault, gas + 1, s⟩⟩
      | .ok callees s =>
        match code.functionsOf callees with
        | .error fault => ⟨[⟨ns, c, s⟩], ⟨.error fault, gas + 1, s⟩⟩
        | .ok entered =>
          (logged code limit (gas + 1) (entered ++ ⟨ns, rest⟩ :: outer) s).behind ⟨ns, c, s⟩
termination_by (limit - gas, frames.length)

/-- The log is that of the run. -/
theorem last_logged : (logged code limit gas frames s).last = run code limit gas frames s := by
  induction gas, frames, s using logged.induct code limit with
  | case1 gas s => rw [logged, run]
  | case2 gas s ns outer ih => rw [logged, run, ih]
  | case3 gas s ns c rest outer hle => rw [logged, run, if_pos hle, if_pos hle]
  | case4 gas s ns c rest outer hle e s₁ hstep =>
    rw [logged, run, if_neg hle, if_neg hle, hstep]
  | case5 gas s ns c rest outer hle callees s₁ hstep e hf =>
    rw [logged, run, if_neg hle, if_neg hle, hstep]
    simp only [hf]
  | case6 gas s ns c rest outer hle callees s₁ hstep entered hf ih =>
    rw [logged, run, if_neg hle, if_neg hle, hstep]
    simp only [hf]
    exact ih

/-- The store behind commands that have been executed. -/
def storeBehind (s : Store) (xs : List Executed) : Store := (xs.getLast?.map (·.store)).getD s

theorem storeBehind_cons (x : Executed) (xs : List Executed) :
    storeBehind s (x :: xs) = storeBehind x.store xs := by
  unfold storeBehind
  cases xs with
  | nil => rfl
  | cons y ys =>
    rw [List.getLast?_cons_cons, List.getLast?_eq_some_getLast (List.cons_ne_nil y ys)]
    rfl

/-! ## Two limits -/

/-- A log is the same as under another limit, or it stops behind the first `n` commands of that. -/
inductive IsCut (limit n : Nat) (s : Store) : Log → Log → Prop where
  | whole {log : Log} (h : ∀ e, log.last.outcome = .error e → e.isLimit = false) :
      IsCut limit n s log log
  | short {done : List Executed} {log : Log} (hlength : done.length = n)
      (hdone : done = log.commands.take n) :
      IsCut limit n s ⟨done, ⟨.error (.gasExhausted limit), limit + 1, storeBehind s done⟩⟩ log

theorem IsCut.behind {n : Nat} {x : Executed} {log log' : Log}
    (h : IsCut limit n x.store log log') : IsCut limit (n + 1) s (log.behind x) (log'.behind x) := by
  cases h with
  | whole h => exact .whole h
  | @short done _ hlength hdone =>
    have hcut : IsCut limit (n + 1) s ⟨x :: done, ⟨.error (.gasExhausted limit), limit + 1,
        storeBehind s (x :: done)⟩⟩ (log'.behind x) :=
      .short (by rw [List.length_cons, hlength]) (by rw [hdone]; rfl)
    rwa [storeBehind_cons] at hcut

/-- A lower limit cuts a run short, or changes nothing. -/
theorem isCut_logged (hgas : gas ≤ limit) (hle : limit ≤ limit') :
    IsCut limit (limit - gas) s (logged code limit gas frames s)
      (logged code limit' gas frames s) := by
  -- The induction follows the run under the lower limit: wherever that takes a command, the other
  -- run takes the same one, since it has the more commands left.
  induction gas, frames, s using logged.induct code limit with
  | case1 gas s =>
    rw [logged, logged]
    exact .whole fun _ h => nomatch h
  | case2 gas s ns outer ih =>
    rw [logged, logged]
    exact ih hgas
  | case3 gas s ns c rest outer hlimit =>
    rw [logged, if_pos hlimit]
    obtain rfl : gas = limit := Nat.le_antisymm hgas hlimit
    rw [Nat.sub_self]
    exact .short rfl rfl
  | case4 gas s ns c rest outer hlimit e s₁ hstep =>
    rw [logged, logged, if_neg hlimit, if_neg fun h => hlimit (Nat.le_trans hle h), hstep]
    refine .whole fun e' h => ?_
    cases h
    exact LimitFree.step c s e s₁ hstep
  | case5 gas s ns c rest outer hlimit callees s₁ hstep e hf =>
    rw [logged, logged, if_neg hlimit, if_neg fun h => hlimit (Nat.le_trans hle h), hstep]
    simp only [hf]
    refine .whole fun e' h => ?_
    cases h
    exact limitFree_functionsOf hf
  | case6 gas s ns c rest outer hlimit callees s₁ hstep entered hf ih =>
    rw [logged, logged, if_neg hlimit, if_neg fun h => hlimit (Nat.le_trans hle h), hstep]
    simp only [hf]
    have hcut := ih (Nat.lt_of_not_le hlimit)
    rw [show limit - gas = limit - (gas + 1) + 1 by omega]
    exact hcut.behind

/-! ## Calls -/

/-- What the host gets from a run. -/
def answer (m : Machine) (e : End) : EStateM.Result Fault Machine Unit :=
  match e.outcome with
  | .ok () => .ok () { m with store := e.store, gas := e.gas }
  | .error fault => .error fault { m with store := e.store, gas := e.gas }

theorem call_of_function {m : Machine} {name : String} {f : Function}
    (hf : m.code.function name = .ok f) :
    call name m = answer m (run m.code m.gasLimit 0 [f] m.store) := by
  obtain ⟨code, store, gas, limit⟩ := m
  unfold call
  simp only [hf]
  dsimp only [runFunction]
  generalize run code limit 0 [f] store = e
  obtain ⟨outcome | ⟨⟩, gas', store'⟩ := e <;> rfl

theorem call_of_fault {m : Machine} {name : String} {e : Fault}
    (hf : m.code.function name = .error e) : call name m = .error e m := by
  unfold call
  simp only [hf]

/-- A call that ends before its limit, without a fault or with one, ends in the same way under every
    higher limit.  A call that comes to its limit has executed the first commands of the call under
    the higher one, as many as the limit allows, and leaves what is there behind the last of them;
    the command that it does not execute any more is counted. -/
theorem call_cut_short (m : Machine) (name : String) {limit : Nat} (hle : m.gasLimit ≤ limit) :
    (∀ m', call name m = .ok () m' →
      call name { m with gasLimit := limit } = .ok () { m' with gasLimit := limit }) ∧
    (∀ e m', call name m = .error e m' → e.isLimit = false →
      call name { m with gasLimit := limit } = .error e { m' with gasLimit := limit }) ∧
    ∀ e m', call name m = .error e m' → e.isLimit = true → e = .gasExhausted m.gasLimit ∧
      ∃ f done, m.code.function name = .ok f ∧
        done = (logged m.code m.gasLimit 0 [f] m.store).commands ∧ done.length = m.gasLimit ∧
        done = (logged m.code limit 0 [f] m.store).commands.take m.gasLimit ∧
        m' = { m with gas := m.gasLimit + 1, store := storeBehind m.store done } := by
  cases hf : m.code.function name with
  | error e =>
    rw [call_of_fault hf, @call_of_fault { m with gasLimit := limit } _ _ hf]
    refine ⟨(fun _ h => nomatch h), fun e' m' h _ => ?_, fun e' m' h hlimit => ?_⟩
    · cases h
      rfl
    -- A name that nothing is loaded under ends the call before any command is counted.
    · cases h
      cases (limitFree_function hf).symm.trans hlimit
  | ok f =>
    have hcut := @isCut_logged m.code m.gasLimit limit 0 [f] m.store (Nat.zero_le _) hle
    rw [call_of_function hf, @call_of_function { m with gasLimit := limit } _ _ hf, ← last_logged,
      ← last_logged]
    generalize hlow : logged m.code m.gasLimit 0 [f] m.store = low at hcut ⊢
    generalize hhigh : logged m.code limit 0 [f] m.store = high at hcut ⊢
    cases hcut with
    | whole h =>
      unfold answer
      obtain ⟨cs, ⟨outcome | ⟨⟩, gas, store⟩⟩ := low
      · refine ⟨(fun _ h => nomatch h), fun e' m' h' _ => ?_, fun e' m' h' hlimit => ?_⟩
        · cases h'
          rfl
        · cases h'
          cases (h _ rfl).symm.trans hlimit
      · refine ⟨fun m' h' => ?_, fun e' m' h' => (nomatch h'), fun e' m' h' => nomatch h'⟩
        cases h'
        rfl
    | @short done _ hlength hdone =>
      refine ⟨(fun _ h => nomatch h), fun e' m' h' hlimit => ?_, fun e' m' h' _ => ?_⟩
      · cases h'
        cases hlimit
      · cases h'
        exact ⟨rfl, f, done, rfl, by rw [hlow], hlength, by rw [hhigh]; exact hdone, rfl⟩

/-- A machine with a function that sets a score and calls itself. -/
def endless : Machine :=
  load { gasLimit := 3 } ⟨"demo", [⟨.func 0, [.setScore .a 1, .call (.func 0)]⟩], []⟩

/-- Its limit lets it run three commands of those that it would run under a limit of five. -/
theorem call_cut_short_endless : ∃ m', call "demo:__internal/funcs/0" endless =
      .error (.gasExhausted 3) m' ∧ m'.gas = 4 ∧
    ∃ f done, endless.code.function "demo:__internal/funcs/0" = .ok f ∧ done.length = 3 ∧
      done = (logged endless.code 5 0 [f] endless.store).commands.take 3 ∧
      m'.store = storeBehind endless.store done := by
  let f : Function := ⟨"demo", [.setScore .a 1, .call (.func 0)]⟩
  have hfunction : endless.code.function "demo:__internal/funcs/0" = .ok f := by
    have hmem : endless.code.functions["demo:__internal/funcs/0"]? = some f :=
      Std.HashMap.getElem?_insert_self
    unfold Code.function
    rw [hmem]
    rfl
  have hcallees : endless.code.functionsOf ["demo:__internal/funcs/0"] = .ok [f] := by
    rw [Code.functionsOf, hfunction]
    rfl
  -- The function sets a score and calls itself: three steps are two scores and one call.
  have hset : ∀ {gas cs outer s}, gas < 3 →
      run endless.code 3 gas (⟨"demo", .setScore .a 1 :: cs⟩ :: outer) s =
        run endless.code 3 (gas + 1) (⟨"demo", cs⟩ :: outer)
          { s with scores := s.scores.set .a 1 } := by
    intro gas cs outer s hgas
    rw [run, if_neg (Nat.not_le_of_lt hgas)]
    rfl
  have hcall : ∀ {gas outer s}, gas < 3 →
      run endless.code 3 gas (⟨"demo", [.call (.func 0)]⟩ :: outer) s =
        run endless.code 3 (gas + 1) (f :: ⟨"demo", []⟩ :: outer) s := by
    intro gas outer s hgas
    rw [run, if_neg (Nat.not_le_of_lt hgas)]
    show (match endless.code.functionsOf ["demo:__internal/funcs/0"] with
      | .error e => _
      | .ok entered => _) = _
    rw [hcallees]
    rfl
  have hrun : run endless.code 3 0 [f] endless.store =
      ⟨.error (.gasExhausted 3), 4, { scores := [(.a, 1)] }⟩ := by
    rw [hset (by decide), hcall (by decide), hset (by decide), run]
    rfl
  have hend : call "demo:__internal/funcs/0" endless = .error (.gasExhausted 3)
      { endless with gas := 4, store := { scores := [(.a, 1)] } } := by
    rw [call_of_function hfunction]
    show answer endless (run endless.code 3 0 [f] endless.store) = _
    rw [hrun]
    rfl
  obtain ⟨-, -, hlimit⟩ := @call_cut_short endless "demo:__internal/funcs/0" 5 (by decide)
  obtain ⟨-, g, done, hg, -, hlength, htake, hm⟩ := hlimit _ _ hend rfl
  exact ⟨_, hend, rfl, g, done, hg, hlength, htake, congrArg Machine.store hm⟩

end WasmPack.Machine
