/-
  WasmPack.Proofs.Execution.Along

  What holds all along a run, however it ends or goes on.

  `Along` follows a run for a number of commands: every command is allowed where
  it is reached, and where nothing is left to run, an end is as required.  What
  holds for every number holds of the whole run.  Triples say so for a list of
  commands, from every state with a property; a call takes one command off the
  number, so what functions that call each other do can be shown by induction
  on it.
-/
import Mathlib.Logic.Relation
import WasmPack.Proofs.Execution.Runs
import WasmPack.Proofs.State.Frame
import WasmPack.Proofs.State.Successes

namespace WasmPack.Machine

variable {code : Code} {ok ok' : String → Command → State → Prop} {n m : Nat}
  {fs gs outer entered : List Function} {f : Function} {ns name : String} {c : Command}
  {rest cs ds : List Command} {names : List String} {σ σ' : State} {s s' : Store}
  {I J K Q Q' : State → Prop} {g : Modifier}

/-! ## Steps of runs -/

/-- The functions under way, the innermost first, and the store. -/
structure Config where
  frames : List Function
  store : Store

/-- The innermost function runs its next command, or leaves at its end. -/
inductive Next (code : Code) : Config → Config → Prop where
  | leave {ns : String} {outer : List Function} {s : Store} :
      Next code ⟨⟨ns, []⟩ :: outer, s⟩ ⟨outer, s⟩
  | step {ns : String} {c : Command} {rest : List Command} {outer entered : List Function}
      {names : List String} {s s' : Store} (hs : Machine.step code.tags ns c s = .ok names s')
      (hf : code.functionsOf names = .ok entered) :
      Next code ⟨⟨ns, c :: rest⟩ :: outer, s⟩ ⟨entered ++ ⟨ns, rest⟩ :: outer, s'⟩

/-- What a run comes to. -/
def Reaches (code : Code) : Config → Config → Prop := Relation.ReflTransGen (Next code)

/-- There is at most one way for a run to go on. -/
theorem Next.unique : Relator.RightUnique (Next code) := by
  rintro _ _ _ (⟨⟩ | ⟨hs, hf⟩) (⟨⟩ | ⟨hs', hf'⟩)
  · rfl
  · cases hs.symm.trans hs'
    cases hf.symm.trans hf'
    rfl

/-- Of two points of a run one comes behind the other. -/
theorem Reaches.total {x y z : Config} (hy : Reaches code x y) (hz : Reaches code x z) :
    Reaches code y z ∨ Reaches code z y :=
  Relation.ReflTransGen.total_of_right_unique Next.unique hy hz

/-- Where nothing is under way, nothing is left to do. -/
theorem reaches_nil {y : Config} (h : Reaches code ⟨[], s⟩ y) : y = ⟨[], s⟩ := by
  rcases h.cases_head with h | ⟨z, hnext, -⟩
  · exact h.symm
  · cases hnext

/-- What some functions come to, they come to with others behind them. -/
theorem Reaches.behind {x y : Config} (h : Reaches code x y) (outer : List Function) :
    Reaches code ⟨x.frames ++ outer, x.store⟩ ⟨y.frames ++ outer, y.store⟩ := by
  induction h with
  | refl => exact .refl
  | tail _ hnext ih =>
    refine .tail ih ?_
    cases hnext with
    | leave => exact .leave
    | step hs hf =>
      rw [List.append_assoc]
      exact .step hs hf

/-- A run without a fault comes to an end where nothing is left to run. -/
theorem reaches_of_run {limit gas gas' : Nat} (h : run code limit gas fs s = ⟨.ok (), gas', s'⟩) :
    Reaches code ⟨fs, s⟩ ⟨[], s'⟩ := by
  induction gas, fs, s using run.induct code limit with
  | case1 gas s =>
    rw [run] at h
    cases h
    exact .refl
  | case2 gas s ns outer ih =>
    rw [run] at h
    exact .head .leave (ih h)
  | case3 gas s ns c rest outer hle =>
    rw [run, if_pos hle] at h
    cases h
  | case4 gas s ns c rest outer hle e s₁ hstep =>
    rw [run, if_neg hle, hstep] at h
    cases h
  | case5 gas s ns c rest outer hle names s₁ hstep e hf =>
    rw [run, if_neg hle, hstep] at h
    simp only [hf] at h
    cases h
  | case6 gas s ns c rest outer hle names s₁ hstep entered hf ih =>
    rw [run, if_neg hle, hstep] at h
    simp only [hf] at h
    exact .head (.step hstep hf) (ih h)

/-! ## Properties of stores -/

/-- The store is in a state with the property. -/
def Holds (I : State → Prop) (s : Store) : Prop := ∃ σ, s.Models σ ∧ I σ

theorem Holds.mono (h : Holds I s) (hIJ : ∀ σ, I σ → J σ) : Holds J s := by
  obtain ⟨σ, hs, hσ⟩ := h
  exact ⟨σ, hs, hIJ σ hσ⟩

theorem Holds.of_models (h : Holds I s) (hs : s.Models σ) : I σ := by
  obtain ⟨τ, hτ, hI⟩ := h
  exact hs.unique hτ ▸ hI

/-! ## Runs that complete -/

/-- The commands run to their end, if the limit is high enough, and leave a state with the
    property. -/
def Completes (code : Code) (ns : String) (cs : List Command) (s : Store) (Q : State → Prop) :
    Prop :=
  ∃ gas, ∀ limit, gas ≤ limit →
    ∃ s', run code limit 0 [⟨ns, cs⟩] s = ⟨.ok (), gas, s'⟩ ∧ Holds Q s'

theorem Runs.completes (h : Runs code [⟨ns, cs⟩] σ (.ok ()) σ') (hs : s.Models σ) (hQ : Q σ') :
    Completes code ns cs s Q := by
  obtain ⟨gas, hgas⟩ := h.run_of_le
  refine ⟨gas, fun limit hle => ?_⟩
  obtain ⟨s', hrun, hs'⟩ := hgas s hs limit hle
  exact ⟨s', hrun, σ', hs', hQ⟩

theorem Completes.mono (h : Completes code ns cs s Q) (hQ : ∀ σ, Q σ → Q' σ) :
    Completes code ns cs s Q' := by
  obtain ⟨gas, hgas⟩ := h
  refine ⟨gas, fun limit hle => ?_⟩
  obtain ⟨s', hrun, hs'⟩ := hgas limit hle
  exact ⟨s', hrun, hs'.mono hQ⟩

/-! ## Along a run -/

/-- For up to `n` commands, every command is allowed where it is reached, and an end is as
    required. -/
def Along (code : Code) (ok : String → Command → State → Prop) (n : Nat) (fs : List Function)
    (Q : State → Prop) (s : Store) : Prop :=
  match fs with
  | [] => Holds Q s
  | ⟨_, []⟩ :: outer => Along code ok n outer Q s
  | ⟨ns, c :: rest⟩ :: outer =>
    match n with
    | 0 => True
    | n + 1 => Holds (ok ns c) s ∧ ∀ names s' entered, step code.tags ns c s = .ok names s' →
        code.functionsOf names = .ok entered →
        Along code ok n (entered ++ ⟨ns, rest⟩ :: outer) Q s'
termination_by (n, fs.length)

namespace Along

theorem nil : Along code ok n [] Q s ↔ Holds Q s := by rw [Along]

theorem leave : Along code ok n (⟨ns, []⟩ :: outer) Q s ↔ Along code ok n outer Q s := by rw [Along]

theorem zero : Along code ok 0 (⟨ns, c :: rest⟩ :: outer) Q s := by
  rw [Along]
  trivial

theorem cons : Along code ok (n + 1) (⟨ns, c :: rest⟩ :: outer) Q s ↔
    Holds (ok ns c) s ∧ ∀ names s' entered, step code.tags ns c s = .ok names s' →
      code.functionsOf names = .ok entered →
      Along code ok n (entered ++ ⟨ns, rest⟩ :: outer) Q s' := by
  rw [Along]

/-- The induction that all of this goes by: on the commands that may still run, and for each number
    of them on the functions under way. -/
theorem count_induction {P : Nat → List Function → Store → Prop} (hnil : ∀ n s, P n [] s)
    (hleave : ∀ n ns outer s, P n outer s → P n (⟨ns, []⟩ :: outer) s)
    (hzero : ∀ ns c rest outer s, P 0 (⟨ns, c :: rest⟩ :: outer) s)
    (hcons : ∀ n ns c rest outer s, (∀ fs s, P n fs s) → P (n + 1) (⟨ns, c :: rest⟩ :: outer) s)
    (n : Nat) (fs : List Function) (s : Store) : P n fs s := by
  induction n generalizing fs s with
  | zero =>
    induction fs with
    | nil => exact hnil 0 s
    | cons f fs ih =>
      obtain ⟨ns, cs⟩ := f
      cases cs with
      | nil => exact hleave 0 ns fs s ih
      | cons c rest => exact hzero ns c rest fs s
  | succ n ihn =>
    induction fs with
    | nil => exact hnil (n + 1) s
    | cons f fs ih =>
      obtain ⟨ns, cs⟩ := f
      cases cs with
      | nil => exact hleave (n + 1) ns fs s ih
      | cons c rest => exact hcons n ns c rest fs s ihn

theorem mono (h : Along code ok n fs Q s) (hQ : ∀ σ, Q σ → Q' σ) : Along code ok n fs Q' s := by
  induction n, fs, s using Along.count_induction with
  | hnil n s => exact nil.2 ((nil.1 h).mono hQ)
  | hleave n ns outer s ih => exact leave.2 (ih (leave.1 h))
  | hzero => exact zero
  | hcons n ns c rest outer s ih =>
    obtain ⟨hok, h⟩ := cons.1 h
    exact cons.2 ⟨hok, fun names s' entered hs hf => ih _ _ (h names s' entered hs hf)⟩

/-- What is allowed may be less than what is said. -/
theorem allow (h : Along code ok n fs Q s) (hok : ∀ ns c σ, ok ns c σ → ok' ns c σ) :
    Along code ok' n fs Q s := by
  induction n, fs, s using Along.count_induction with
  | hnil n s => exact nil.2 (nil.1 h)
  | hleave n ns outer s ih => exact leave.2 (ih (leave.1 h))
  | hzero => exact zero
  | hcons n ns c rest outer s ih =>
    obtain ⟨hnow, h⟩ := cons.1 h
    exact cons.2 ⟨hnow.mono (hok ns c), fun names s' entered hs hf => ih _ _ (h names s' entered hs hf)⟩

/-- What holds for more commands holds for fewer. -/
theorem pred (h : Along code ok (n + 1) fs Q s) : Along code ok n fs Q s := by
  induction n, fs, s using Along.count_induction with
  | hnil n s => exact nil.2 (nil.1 h)
  | hleave n ns outer s ih => exact leave.2 (ih (leave.1 h))
  | hzero => exact zero
  | hcons n ns c rest outer s ih =>
    obtain ⟨hok, h⟩ := cons.1 h
    exact cons.2 ⟨hok, fun names s' entered hs hf => ih _ _ (h names s' entered hs hf)⟩

theorem of_le (h : Along code ok n fs Q s) (hle : m ≤ n) : Along code ok m fs Q s := by
  induction hle with
  | refl => exact h
  | step _ ih => exact ih h.pred

/-- Functions under way one behind the other. -/
theorem append (h : Along code ok n fs Q s)
    (hgs : ∀ s, Holds Q s → Along code ok n gs Q' s) : Along code ok n (fs ++ gs) Q' s := by
  induction n, fs, s using Along.count_induction with
  | hnil n s => exact hgs s (nil.1 h)
  | hleave n ns outer s ih => exact leave.2 (ih (leave.1 h) hgs)
  | hzero => exact zero
  | hcons n ns c rest outer s ih =>
    obtain ⟨hok, h⟩ := cons.1 h
    refine cons.2 ⟨hok, fun names s' entered hs hf => ?_⟩
    have hrest := ih _ _ (h names s' entered hs hf) fun s hs => (hgs s hs).pred
    rwa [List.append_assoc] at hrest

/-- Commands of one function are as good as commands of two, one behind the other. -/
theorem join {pre : List Function}
    (h : Along code ok n (pre ++ ⟨ns, cs⟩ :: ⟨ns, ds⟩ :: outer) Q s) :
    Along code ok n (pre ++ ⟨ns, cs ++ ds⟩ :: outer) Q s := by
  -- The induction is on the run of the two functions; `pre` is what runs further in by then.
  generalize hfs : pre ++ ⟨ns, cs⟩ :: ⟨ns, ds⟩ :: outer = fs at h
  induction n, fs, s using Along.count_induction generalizing pre cs with
  | hnil n s => exact absurd hfs (by simp)
  | hleave n ns' outer' s ih =>
    cases pre with
    | nil =>
      simp only [List.nil_append, List.cons.injEq, Function.mk.injEq] at hfs
      obtain ⟨⟨rfl, rfl⟩, rfl⟩ := hfs
      exact leave.1 h
    | cons f pre =>
      rw [List.cons_append, List.cons.injEq] at hfs
      obtain ⟨rfl, rfl⟩ := hfs
      exact leave.2 (ih rfl (leave.1 h))
  | hzero ns' c rest outer' s =>
    cases pre with
    | nil =>
      simp only [List.nil_append, List.cons.injEq, Function.mk.injEq] at hfs
      obtain ⟨⟨rfl, rfl⟩, rfl⟩ := hfs
      exact zero
    | cons f pre =>
      rw [List.cons_append, List.cons.injEq] at hfs
      obtain ⟨rfl, rfl⟩ := hfs
      exact zero
  | hcons n ns' c rest outer' s ih =>
    obtain ⟨hok, h⟩ := cons.1 h
    cases pre with
    | nil =>
      simp only [List.nil_append, List.cons.injEq, Function.mk.injEq] at hfs
      obtain ⟨⟨rfl, rfl⟩, rfl⟩ := hfs
      exact cons.2 ⟨hok, fun names s' entered hs hf =>
        ih _ _ rfl (h names s' entered hs hf)⟩
    | cons f pre =>
      rw [List.cons_append, List.cons.injEq] at hfs
      obtain ⟨rfl, rfl⟩ := hfs
      refine cons.2 ⟨hok, fun names s' entered hs hf => ?_⟩
      have hassoc : ∀ gs : List Function, entered ++ ⟨ns', rest⟩ :: (pre ++ gs) =
          (entered ++ ⟨ns', rest⟩ :: pre) ++ gs := fun gs => by
        rw [List.append_assoc, List.cons_append]
      have hrest := h names s' entered hs hf
      rw [hassoc] at hrest
      show Along code ok n (entered ++ ⟨ns', rest⟩ :: (pre ++ ⟨ns, cs ++ ds⟩ :: outer)) Q s'
      rw [hassoc]
      exact ih _ _ rfl hrest

/-- What holds along a run from its beginning holds along it from where it has come to. -/
theorem next {x y : Config} (h : ∀ n, Along code ok n x.frames Q x.store) (hxy : Next code x y) :
    ∀ n, Along code ok n y.frames Q y.store := by
  cases hxy with
  | leave => exact fun n => leave.1 (h n)
  | step hs hf => exact fun n => (cons.1 (h (n + 1))).2 _ _ _ hs hf

theorem reaches {x y : Config} (h : ∀ n, Along code ok n x.frames Q x.store)
    (hxy : Reaches code x y) : ∀ n, Along code ok n y.frames Q y.store := by
  induction hxy with
  | refl => exact h
  | tail _ hyz ih => exact next ih hyz

/-- The next command is allowed wherever a run has come to. -/
theorem allowed (h : ∀ n, Along code ok n fs Q s)
    (hreach : Reaches code ⟨fs, s⟩ ⟨⟨ns, c :: rest⟩ :: outer, s'⟩) : Holds (ok ns c) s' :=
  (cons.1 (reaches h hreach 1)).1

/-- An end that a run comes to is as required. -/
theorem ends (h : ∀ n, Along code ok n fs Q s) (hreach : Reaches code ⟨fs, s⟩ ⟨[], s'⟩) :
    Holds Q s' :=
  nil.1 (reaches h hreach 0)

end Along

/-- From a point of a run on, every command is allowed where it is reached. -/
def Throughout (code : Code) (ok : String → Command → State → Prop) (x : Config) : Prop :=
  ∀ ns c rest outer s, Reaches code x ⟨⟨ns, c :: rest⟩ :: outer, s⟩ → Holds (ok ns c) s

/-! ## Triples -/

/-- From a state with one property, up to `n` of the commands and those of what they call are
    allowed, and lead to a state with another. -/
def Triple (code : Code) (ok : String → Command → State → Prop) (n : Nat) (ns : String)
    (cs : List Command) (I J : State → Prop) : Prop :=
  ∀ s, Holds I s → Along code ok n [⟨ns, cs⟩] J s

namespace Triple

theorem nil (h : ∀ σ, I σ → J σ) : Triple code ok n ns [] I J := fun _ hs =>
  Along.leave.2 (Along.nil.2 (hs.mono h))

theorem weaken {I' J' : State → Prop} (h : Triple code ok n ns cs I J) (hI : ∀ σ, I' σ → I σ)
    (hJ : ∀ σ, J σ → J' σ) : Triple code ok n ns cs I' J' := fun s hs =>
  (h s (hs.mono hI)).mono hJ

theorem allow (h : Triple code ok n ns cs I J) (hok : ∀ ns c σ, ok ns c σ → ok' ns c σ) :
    Triple code ok' n ns cs I J := fun s hs => (h s hs).allow hok

theorem of_le (h : Triple code ok n ns cs I J) (hle : m ≤ n) : Triple code ok m ns cs I J :=
  fun s hs => (h s hs).of_le hle

/-- Commands in sequence. -/
theorem seq (h : Triple code ok n ns cs I J) (h' : Triple code ok n ns ds J K) :
    Triple code ok n ns (cs ++ ds) I K := by
  intro s hs
  have happend : Along code ok n ([] ++ ⟨ns, cs⟩ :: [⟨ns, ds⟩]) K s := (h s hs).append h'
  exact happend.join

theorem cons (h : Triple code ok n ns [c] I J) (h' : Triple code ok n ns cs J K) :
    Triple code ok n ns (c :: cs) I K := by
  show Triple code ok n ns ([c] ++ cs) I K
  exact h.seq h'

/-- One of several ways to begin. -/
theorem or (h : Triple code ok n ns cs I K) (h' : Triple code ok n ns cs J K) :
    Triple code ok n ns cs (fun σ => I σ ∨ J σ) K := by
  rintro s ⟨σ, hs, hI | hJ⟩
  · exact h s ⟨σ, hs, hI⟩
  · exact h' s ⟨σ, hs, hJ⟩

/-- A triple may be shown from each state by itself. -/
theorem of_forall (h : ∀ σ, I σ → Triple code ok n ns cs (· = σ) J) :
    Triple code ok n ns cs I J := by
  rintro s ⟨σ, hs, hI⟩
  exact h σ hI s ⟨σ, hs, rfl⟩

/-- One command, by what is run behind it. -/
theorem step (hok : ∀ σ, I σ → ok ns c σ)
    (h : ∀ s names s' entered, Holds I s → Machine.step code.tags ns c s = .ok names s' →
      code.functionsOf names = .ok entered → Along code ok n entered J s') :
    Triple code ok (n + 1) ns [c] I J := by
  intro s hs
  refine Along.cons.2 ⟨hs.mono hok, fun names s' entered hstep hf => ?_⟩
  exact (h s names s' entered hs hstep hf).append fun s hJ => Along.leave.2 (Along.nil.2 hJ)

end Triple

/-! ## Single commands -/

/-- From a state with one property the command calls nothing, and leads to a state with another if
    it succeeds. -/
def Moves (tags : TagTable) (ns : String) (c : Command) (I J : State → Prop) : Prop :=
  ∀ s names s', Holds I s → step tags ns c s = .ok names s' → names = [] ∧ Holds J s'

theorem Triple.moves (hok : ∀ σ, I σ → ok ns c σ) (h : Moves code.tags ns c I J) :
    Triple code ok n ns [c] I J := by
  cases n with
  | zero => exact fun s hs => Along.zero
  | succ n =>
    refine .step hok fun s names s' entered hs hstep hf => ?_
    obtain ⟨rfl, hJ⟩ := h s names s' hs hstep
    cases hf
    exact Along.nil.2 hJ

/-- What the command does is known from each state. -/
theorem Moves.of_steps {tags : TagTable} (h : ∀ σ, I σ →
    (∃ σ', Steps tags ns c σ [] σ' ∧ J σ') ∨ ∃ e σ', Fails σ (step tags ns c) e σ') :
    Moves tags ns c I J := by
  rintro s names s' ⟨σ, hs, hI⟩ hstep
  obtain ⟨σ', hsteps, hJ⟩ | ⟨e, σ', hfails⟩ := h σ hI
  · obtain ⟨t, ht, hmodels⟩ := hsteps s hs
    cases hstep.symm.trans ht
    exact ⟨rfl, σ', hmodels, hJ⟩
  · obtain ⟨t, ht, -⟩ := hfails s hs
    cases hstep.symm.trans ht

theorem chain_callsWithin {C : Calls} (hc : c.callsWithin C = true) :
    ∀ d, (chain c).2 = some d → d.callsWithin C = true := by
  induction c with
  | test ms => exact fun _ hd => nomatch hd
  | execute ms run ih => exact ih hc
  | _ =>
    intro d hd
    cases hd
    exact hc

/-- A step names only what the command may call. -/
theorem names_within {tags : TagTable} {C : Calls} (hc : c.callsWithin C = true)
    (h : step tags ns c s = .ok names s') : ∀ name ∈ names,
      (∃ symbol, C.symbol symbol = true ∧ name = symbol.qualifiedName ns) ∨
        ∃ tag, C.tag tag = true ∧ name ∈ tags.members tag := by
  have hnone : ∀ {α : Type} {x : Exec α} {t t' : Store},
      (x >>= fun _ => pure ([] : List String)) t = .ok names t' → names = [] := by
    intro α x t t' hx
    obtain ⟨a, u, -, hpure⟩ := exec_bind_eq_ok.1 hx
    cases hpure
    rfl
  have hperform : ∀ {d : Command} {pending : Pending} {t t' : Store}, (perform ns d >>= fun report =>
      deliver ns report pending >>= fun _ => pure ([] : List String)) t = .ok names t' →
      names = [] := by
    intro d pending t t' hd
    rw [← bind_assoc] at hd
    exact hnone hd
  have hnil : names = [] → ∀ name ∈ names,
      (∃ symbol, C.symbol symbol = true ∧ name = symbol.qualifiedName ns) ∨
        ∃ tag, C.tag tag = true ∧ name ∈ tags.members tag := by
    rintro rfl name hname
    cases hname
  -- Only what stands behind the last modifier can name anything, and only if it is a call.
  rw [step_eq] at h
  split at h
  · rename_i pending hgate
    cases hlast : (chain c).2 with
    | none =>
      rw [hlast] at h
      exact hnil (hnone h)
    | some d =>
      have hd := chain_callsWithin hc d hlast
      rw [hlast] at h
      cases d with
      | call symbol =>
        rw [finish] at h
        split at h
        · cases h
          intro name hname
          exact .inl ⟨symbol, hd, List.mem_singleton.1 hname⟩
        · cases h
      | callTag tag =>
        rw [finish] at h
        split at h
        · have hinspect : inspect (fun _ => tagMembers tags tag) s = .ok names s' := h
          unfold inspect tagMembers at hinspect
          intro name hname
          refine .inr ⟨tag, hd, ?_⟩
          cases hm : tags.members tag with
          | nil =>
            simp only [hm] at hinspect
            cases hinspect
          | cons first rest =>
            simp only [hm] at hinspect
            cases hinspect
            exact hname
        · cases h
      | _ => exact hnil (hperform h)
  · split at h
    · exact hnil (hnone h)
    · cases h
      exact hnil rfl
  · cases h

/-- What a command maintains holds behind a step that succeeds. -/
theorem Maintains.holds {tags : TagTable} (hI : Maintains I (Machine.step tags ns c))
    (hs : Holds I s) (h : Machine.step tags ns c s = .ok names s') : Holds I s' := by
  obtain ⟨σ, hs, hσ⟩ := hs
  obtain ⟨σ', hσ', hs'⟩ := hI σ s hσ hs
  rw [after, h] at hs'
  exact ⟨σ', hs', hσ'⟩

/-- What does not depend on what the command may write is kept. -/
theorem holds_within {W : Writes} {tags : TagTable} (hW : c.isWithin W = true)
    (hI : Ignores W I) (hs : Holds I s) (h : step tags ns c s = .ok names s') : Holds I s' :=
  (Maintains.step hI hW).holds hs h

theorem Moves.within {W : Writes} {tags : TagTable} (hc : c.callsWithin .nothing = true)
    (hW : c.isWithin W = true) (hI : Ignores W I) : Moves tags ns c I I := by
  intro s names s' hs hstep
  refine ⟨List.eq_nil_iff_forall_not_mem.2 fun name hname => ?_, holds_within hW hI hs hstep⟩
  obtain ⟨symbol, hsymbol, -⟩ | ⟨tag, htag, -⟩ := names_within hc hstep name hname
  · cases hsymbol
  · cases htag

/-! ## Guards -/

theorem holds_error {cond : Condition} (hs : s.Models σ) (h : σ.holds cond = none) :
    ∃ e, Machine.holds s cond = .error e := by
  cases cond with
  | isIn r range =>
    have hr : σ.regs r = none := Option.map_eq_none_iff.1 h
    exact ⟨_, by rw [Machine.holds, hs.read_none hr]; rfl⟩
  | compare lhs op rhs =>
    rw [Machine.holds]
    cases hl : σ.regs lhs with
    | none => exact ⟨_, by rw [hs.read_none hl]; rfl⟩
    | some x =>
      have hr : σ.regs rhs = none := by
        have hmap : (σ.regs lhs).bind (fun x => (σ.regs rhs).map fun y => op.holds x y) = none := h
        rw [hl] at hmap
        exact Option.map_eq_none_iff.1 hmap
      exact ⟨_, by rw [hs.read hl, hs.read_none hr]; rfl⟩

/-- A guarded command that succeeds does what the command does where the guard holds, and nothing
    where it does not. -/
theorem step_guarded_cases {tags : TagTable} (hs : s.Models σ) (hg : g.IsCondition)
    (h : step tags ns (c.guarded g) s = .ok names s') :
    (σ.allows g = some true ∧ step tags ns c s = .ok names s') ∨
      (σ.allows g = some false ∧ names = [] ∧ s' = s) := by
  cases ha : σ.allows g with
  | some b =>
    cases b with
    | true =>
      rw [step_guarded hs ha] at h
      exact .inl ⟨rfl, h⟩
    | false =>
      rw [step_of_gate_false (hs.gate_cons_false ha)] at h
      cases h
      exact .inr ⟨rfl, rfl, rfl⟩
  | none =>
    have herror : ∃ e, gate s (chain (c.guarded g)).1 = .error e := by
      rw [chain_guarded]
      cases g with
      | onlyIf cond =>
        obtain ⟨e, he⟩ := holds_error hs ha
        exact ⟨e, by rw [gate, he]; rfl⟩
      | exceptIf cond =>
        obtain ⟨e, he⟩ := holds_error hs (Option.map_eq_none_iff.1 ha)
        exact ⟨e, by rw [gate, he]; rfl⟩
      | store kind target => exact absurd rfl (hg kind target)
    obtain ⟨e, he⟩ := herror
    rw [step_eq, he] at h
    cases h

/-- A guarded command does what the command does, or nothing. -/
theorem Triple.guarded (hg : g.IsCondition)
    (hok : ∀ (s : Store) σ, s.Models σ → I σ → ok ns (c.guarded g) σ)
    (h : Triple code ok n ns [c] (fun σ => I σ ∧ σ.allows g = some true) J)
    (hblocked : ∀ σ, I σ → σ.allows g = some false → J σ) :
    Triple code ok n ns [c.guarded g] I J := by
  cases n with
  | zero => exact fun s hs => Along.zero
  | succ n =>
    intro s hs
    obtain ⟨σ, hs, hI⟩ := hs
    refine Along.cons.2 ⟨⟨σ, hs, hok s σ hs hI⟩, fun names s' entered hstep hf => ?_⟩
    obtain ⟨ha, hstep⟩ | ⟨ha, rfl, rfl⟩ := step_guarded_cases hs hg hstep
    · exact (Along.cons.1 (h s ⟨σ, hs, hI, ha⟩)).2 names s' entered hstep hf
    · cases hf
      exact Along.leave.2 (Along.nil.2 ⟨σ, hs, hblocked σ hI ha⟩)

/-! ## Calls -/

/-- Functions one behind the other. -/
theorem Along.of_functionsOf {names : List String} (hf : code.functionsOf names = .ok entered)
    (h : ∀ name ∈ names, ∀ f, code.function name = .ok f →
      Triple code ok n f.ns f.commands I I) (hs : Holds I s) : Along code ok n entered I s := by
  induction names generalizing entered s with
  | nil =>
    cases hf
    exact Along.nil.2 hs
  | cons name names ih =>
    obtain ⟨rest, hrest, hf⟩ := except_bind_eq_ok.1 hf
    obtain ⟨f, hfound, hf⟩ := except_bind_eq_ok.1 hf
    cases hf
    have hfirst := h name List.mem_cons_self f hfound s hs
    exact hfirst.append fun s hs =>
      ih hrest (fun name' hname' => h name' (List.mem_cons_of_mem name hname')) hs

/-- A command that may call maintains what it maintains by itself, if what the names mean does. -/
theorem Triple.calls_of_maintains {C : Calls} (hI : Maintains I (Machine.step code.tags ns c))
    (hC : c.callsWithin C = true) (hok : ∀ σ, I σ → ok ns c σ)
    (hsymbol : ∀ symbol, C.symbol symbol = true → ∀ f,
      code.function (symbol.qualifiedName ns) = .ok f → Triple code ok n f.ns f.commands I I)
    (htag : ∀ tag, C.tag tag = true → ∀ name ∈ code.tags.members tag, ∀ f,
      code.function name = .ok f → Triple code ok n f.ns f.commands I I) :
    Triple code ok (n + 1) ns [c] I I := by
  refine .step hok fun s names s' entered hs hstep hf => ?_
  refine Along.of_functionsOf hf (fun name hname f hfound => ?_) (hI.holds hs hstep)
  obtain ⟨symbol, hs, rfl⟩ | ⟨tag, ht, hmem⟩ := names_within hC hstep name hname
  · exact hsymbol symbol hs f hfound
  · exact htag tag ht name hmem f hfound

/-- A command that may call keeps what does not depend on what it may write, if what the names mean
    does. -/
theorem Triple.calls {W : Writes} {C : Calls} (hW : c.isWithin W = true) (hI : Ignores W I)
    (hC : c.callsWithin C = true) (hok : ∀ σ, I σ → ok ns c σ)
    (hsymbol : ∀ symbol, C.symbol symbol = true → ∀ f,
      code.function (symbol.qualifiedName ns) = .ok f → Triple code ok n f.ns f.commands I I)
    (htag : ∀ tag, C.tag tag = true → ∀ name ∈ code.tags.members tag, ∀ f,
      code.function name = .ok f → Triple code ok n f.ns f.commands I I) :
    Triple code ok (n + 1) ns [c] I I :=
  .calls_of_maintains (.step hI hW) hC hok hsymbol htag

/-- A call runs what its name means. -/
theorem Triple.call {symbol : Symbol} (hok : ∀ σ, I σ → ok ns (.call symbol) σ)
    (h : ∀ f, code.function (symbol.qualifiedName ns) = .ok f →
      Triple code ok n f.ns f.commands I J) :
    Triple code ok (n + 1) ns [.call symbol] I J := by
  refine .step hok fun s names s' entered hs hstep hf => ?_
  cases hstep
  obtain ⟨rest, hrest, hfs⟩ := except_bind_eq_ok.1 hf
  obtain ⟨f, hfound, heq⟩ := except_bind_eq_ok.1 hfs
  cases hrest
  cases heq
  exact h f hfound s hs

/-- A guarded call. -/
theorem Triple.callIf {symbol : Symbol} (hg : g.IsCondition)
    (hok : ∀ σ, I σ → ok ns ((Command.call symbol).guarded g) σ)
    (h : ∀ f, code.function (symbol.qualifiedName ns) = .ok f →
      Triple code ok n f.ns f.commands (fun σ => I σ ∧ σ.allows g = some true) J)
    (hblocked : ∀ σ, I σ → σ.allows g = some false → J σ) :
    Triple code ok (n + 1) ns [(Command.call symbol).guarded g] I J := by
  refine .step hok fun s names s' entered hs hstep hf => ?_
  obtain ⟨σ, hs, hI⟩ := hs
  obtain ⟨ha, hstep⟩ | ⟨ha, rfl, rfl⟩ := step_guarded_cases hs hg hstep
  · cases hstep
    obtain ⟨rest, hrest, hfs⟩ := except_bind_eq_ok.1 hf
    obtain ⟨f, hfound, heq⟩ := except_bind_eq_ok.1 hfs
    cases hrest
    cases heq
    exact h f hfound s ⟨σ, hs, hI, ha⟩
  · cases hf
    exact Along.nil.2 ⟨σ, hs, hblocked σ hI ha⟩

end WasmPack.Machine
