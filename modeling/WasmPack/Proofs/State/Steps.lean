/-
  WasmPack.Proofs.State.Steps

  What single commands do to a state.

  `Steps` says what a command does wherever the store is in a state: which
  functions it calls and which state it leaves.  There is one rule for each
  shape of command that compiled code uses.  A guard is a rule of its own: a
  guarded command does what the command does, or nothing.
-/
import WasmPack.Machine.Step
import WasmPack.Proofs.State.Access

namespace WasmPack.Machine

variable {α β : Type} {tags : TagTable} {ns : String} {σ σ₁ σ' : State} {c : Command}
  {r q : Register} {m n : Int32} {path source : Path} {value v v' : Nbt} {k : String}
  {rest : List Segment}

/-! ## Work on states -/

/-- Where the store is in a state, the work succeeds with a value and leaves another state. -/
def Does (σ : State) (work : Exec α) (a : α) (σ' : State) : Prop :=
  ∀ s, s.Models σ → ∃ s', work s = .ok a s' ∧ s'.Models σ'

/-- Where the store is in a state, the work fails and leaves another state. -/
def Fails (σ : State) (work : Exec α) (fault : Fault) (σ' : State) : Prop :=
  ∀ s, s.Models σ → ∃ s', work s = .error fault s' ∧ s'.Models σ'

/-- A command names the functions that it calls and leaves a state. -/
abbrev Steps (tags : TagTable) (ns : String) (c : Command) (σ : State) (callees : List String)
    (σ' : State) : Prop :=
  Does σ (step tags ns c) callees σ'

theorem Does.pure (a : α) : Does σ (pure a) a σ := fun s h => ⟨s, rfl, h⟩

theorem Does.bind {x : Exec α} {f : α → Exec β} {a : α} {b : β} (hx : Does σ x a σ₁)
    (hf : Does σ₁ (f a) b σ') : Does σ (x >>= f) b σ' := by
  intro s h
  obtain ⟨s₁, hx, h₁⟩ := hx s h
  obtain ⟨s', hf, h'⟩ := hf s₁ h₁
  refine ⟨s', ?_, h'⟩
  show EStateM.bind x f s = _
  rw [EStateM.bind, hx]
  exact hf

theorem Fails.bind {x : Exec α} {f : α → Exec β} {a : α} {e : Fault} (hx : Does σ x a σ₁)
    (hf : Fails σ₁ (f a) e σ') : Fails σ (x >>= f) e σ' := by
  intro s h
  obtain ⟨s₁, hx, h₁⟩ := hx s h
  obtain ⟨s', hf, h'⟩ := hf s₁ h₁
  refine ⟨s', ?_, h'⟩
  show EStateM.bind x f s = _
  rw [EStateM.bind, hx]
  exact hf

theorem Fails.bind_left {x : Exec α} {f : α → Exec β} {e : Fault} (hx : Fails σ x e σ') :
    Fails σ (x >>= f) e σ' := by
  intro s h
  obtain ⟨s', hx, h'⟩ := hx s h
  refine ⟨s', ?_, h'⟩
  show EStateM.bind x f s = _
  rw [EStateM.bind, hx]

theorem Does.inspect {f : Store → Except Fault α} {a : α} (h : ∀ s, s.Models σ → f s = .ok a) :
    Does σ (inspect f) a σ := by
  intro s hs
  refine ⟨s, ?_, hs⟩
  unfold Machine.inspect
  rw [h s hs]

theorem Fails.inspect {f : Store → Except Fault α} {e : Fault}
    (h : ∀ s, s.Models σ → f s = .error e) : Fails σ (inspect f) e σ := by
  intro s hs
  refine ⟨s, ?_, hs⟩
  unfold Machine.inspect
  rw [h s hs]

theorem Does.setScore : Does σ (setScore r n) () (σ.setReg r n) := fun _ h =>
  ⟨_, rfl, h.setReg r n⟩

theorem Does.reporting {work : Exec Unit} (h : Does σ work () σ') (n : Int32) :
    Does σ (reporting work n) (.done n) σ' :=
  h.bind (Does.pure _)

/-! ## Performing -/

theorem Does.read (h : σ.regs r = some n) : Does σ (Machine.inspect (·.read r)) n σ :=
  Does.inspect fun _ hs => hs.read h

theorem Fails.read (h : σ.regs r = none) :
    Fails σ (Machine.inspect (·.read r)) (.unsetScore r) σ :=
  Fails.inspect fun _ hs => by
    rw [Store.read, hs.regs, h]
    rfl

theorem performs_setScore : Does σ (perform ns (.setScore r n)) (.done n) (σ.setReg r n) :=
  Does.setScore.reporting n

theorem performs_addScore :
    Does σ (perform ns (.addScore r n)) (.done ((σ.regs r).getD 0 + n))
      (σ.setReg r ((σ.regs r).getD 0 + n)) :=
  (Does.inspect fun _ hs => by rw [hs.readTarget]; rfl).bind (Does.setScore.reporting _)

theorem performs_operation {op : ScoreOp} (hop : op ≠ .swap) (hq : σ.regs q = some n) :
    Does σ (perform ns (.operation r op q)) (.done (applyOp op ((σ.regs r).getD 0) n))
      (σ.setReg r (applyOp op ((σ.regs r).getD 0) n)) := by
  refine (Does.read hq).bind ((Does.inspect (a := (σ.regs r).getD 0) fun _ hs => ?_).bind ?_)
  · rw [hs.readTarget]
    rfl
  · simp only [if_neg hop]
    exact Does.setScore.reporting _

theorem performs_getScore (h : σ.regs r = some n) :
    Does σ (perform ns (.getScore r)) (.done n) σ :=
  (Does.read h).bind (Does.pure _)

theorem performs_getData {slot : Nbt.Slot} (hp : Keyed path) (h : σ.lookup ns path = some slot) :
    Does σ (perform ns (.getData path)) (.done slot.measure) σ :=
  Does.inspect fun _ hs => by
    rw [hs.lookup hp, h]
    rfl

theorem performs_getData_none (hp : Keyed path) (h : σ.lookup ns path = none) :
    Does σ (perform ns (.getData path)) .failed σ :=
  Does.inspect fun _ hs => by
    rw [hs.lookup hp, h]
    rfl

theorem Does.require {slot : Nbt.Slot} (hp : Keyed source) (h : σ.lookup ns source = some slot) :
    Does σ (require ns source) slot.toNbt σ :=
  Does.inspect fun _ hs => by
    rw [hs.lookup hp, h]
    rfl

theorem Fails.require (hp : Keyed source) (h : σ.lookup ns source = none) :
    Fails σ (require ns source) (.missingPath (source.render ns)) σ :=
  Fails.inspect fun _ hs => by
    rw [hs.lookup hp, h]
    rfl

theorem performs_append (hp : path.segments = .key k :: rest)
    (hk : σ.cells (path.storage.id ns) k = some v) (ha : Nbt.append rest value v = (some true, v')) :
    Does σ (perform ns (.append path value)) (.done 1) (σ.setCell (path.storage.id ns) k v') := by
  have happend : Does σ (append ns path value) () _ := fun s hs => hs.append_deep hp hk ha
  exact happend.reporting 1

theorem performs_setData_top (hp : path.segments = [.key k]) :
    Does σ (perform ns (.setData path value))
      (.ofChange (σ.cells (path.storage.id ns) k ≠ some value))
      (σ.setCell (path.storage.id ns) k value) := by
  have hwrite : Does σ (write ns path value) _ _ := fun s hs => hs.write_top hp
  exact hwrite.bind (Does.pure _)

theorem performs_setData {b : Bool} (hp : path.segments = .key k :: rest) (hrest : rest ≠ [])
    (hk : σ.cells (path.storage.id ns) k = some v) (hw : Nbt.write rest value v = (some b, v')) :
    Does σ (perform ns (.setData path value)) (.ofChange b)
      (σ.setCell (path.storage.id ns) k v') := by
  have hwrite : Does σ (write ns path value) _ _ := fun s hs => hs.write_deep hp hrest hk hw
  exact hwrite.bind (Does.pure _)

theorem performs_remove (hp : path.segments = .key k :: rest) (hrest : rest ≠ [])
    (hk : σ.cells (path.storage.id ns) k = some v) (hr : Nbt.remove rest v = (some (), v')) :
    Does σ (perform ns (.remove path)) (.done 1) (σ.setCell (path.storage.id ns) k v') := by
  have hremove : Does σ (remove ns path) () _ := fun s hs => hs.remove_deep hp hrest hk hr
  exact hremove.reporting 1

/-- Appending from a path is appending what lies there. -/
theorem performs_appendFrom {slot : Nbt.Slot} {report : Report} (hp : Keyed source)
    (h : σ.lookup ns source = some slot)
    (ha : Does σ (perform ns (.append path slot.toNbt)) report σ') :
    Does σ (perform ns (.appendFrom path source)) report σ' :=
  (Does.require hp h).bind ha

/-- Setting from a path is setting what lies there. -/
theorem performs_setFrom {slot : Nbt.Slot} {report : Report} (hp : Keyed source)
    (h : σ.lookup ns source = some slot)
    (hs : Does σ (perform ns (.setData path slot.toNbt)) report σ') :
    Does σ (perform ns (.setFrom path source)) report σ' :=
  (Does.require hp h).bind hs

/-! ## Storing reports -/

/-- Storing a number in a register. -/
theorem stores_score : Does σ (storeNumber ns n (.score r)) () (σ.setReg r n) := Does.setScore

/-- Storing a number where a path leads into the value under a key. -/
theorem stores_storage {tag : NumericTag} {b : Bool} (hp : path.segments = .key k :: rest)
    (hrest : rest ≠ []) (hk : σ.cells (path.storage.id ns) k = some v)
    (hw : Nbt.write rest (numberAs n tag) v = (some b, v')) :
    Does σ (storeNumber ns n (.storage path tag)) () (σ.setCell (path.storage.id ns) k v') := by
  have hwrite : Does σ (write ns path (numberAs n tag)) _ _ :=
    fun s hs => hs.write_deep hp hrest hk hw
  exact hwrite.bind (Does.pure _)

/-! ## Conditions and guards -/

/-- Whether a condition holds, if its registers have scores. -/
def State.holds (σ : State) : Condition → Option Bool
  | .isIn r range => (σ.regs r).map range.contains
  | .compare lhs op rhs => (σ.regs lhs).bind fun x => (σ.regs rhs).map fun y => op.holds x y

/-- Whether a guard lets a command run. -/
def State.allows (σ : State) : Modifier → Option Bool
  | .onlyIf c => σ.holds c
  | .exceptIf c => (σ.holds c).map (!·)
  | .store _ _ => none

theorem Store.Models.holds {s : Store} (h : s.Models σ) {c : Condition} {b : Bool}
    (hc : σ.holds c = some b) : Machine.holds s c = .ok b := by
  cases c with
  | isIn r range =>
    obtain ⟨n, hr, rfl⟩ := Option.map_eq_some_iff.1 hc
    rw [Machine.holds, h.read hr]
    rfl
  | compare lhs op rhs =>
    obtain ⟨x, hx, hc⟩ := Option.bind_eq_some_iff.1 hc
    obtain ⟨y, hy, rfl⟩ := Option.map_eq_some_iff.1 hc
    rw [Machine.holds, h.read hx, h.read hy]
    rfl

theorem gate_onlyIf {s : Store} {condition : Condition} {ms : List Modifier} {b : Bool}
    (h : holds s condition = .ok b) :
    gate s (.onlyIf condition :: ms) = if b then gate s ms else .ok ([], false) := by
  rw [gate, h]
  rfl

theorem gate_exceptIf {s : Store} {condition : Condition} {ms : List Modifier} {b : Bool}
    (h : holds s condition = .ok b) :
    gate s (.exceptIf condition :: ms) = if b then .ok ([], false) else gate s ms := by
  rw [gate, h]
  rfl

/-- Behind a guard that holds the other modifiers are gone through. -/
theorem Store.Models.gate_cons {s : Store} (h : s.Models σ) {g : Modifier} {ms : List Modifier}
    (hg : σ.allows g = some true) : gate s (g :: ms) = gate s ms := by
  cases g with
  | onlyIf c => exact gate_onlyIf (h.holds hg)
  | exceptIf c =>
    obtain ⟨b, hc, hb⟩ := Option.map_eq_some_iff.1 hg
    rw [Bool.not_eq_true'] at hb
    subst hb
    exact gate_exceptIf (h.holds hc)
  | store kind target => cases hg

/-- A guard that does not hold ends the way through the modifiers. -/
theorem Store.Models.gate_cons_false {s : Store} (h : s.Models σ) {g : Modifier}
    {ms : List Modifier} (hg : σ.allows g = some false) : gate s (g :: ms) = .ok ([], false) := by
  cases g with
  | onlyIf c => exact gate_onlyIf (h.holds hg)
  | exceptIf c =>
    obtain ⟨b, hc, hb⟩ := Option.map_eq_some_iff.1 hg
    rw [Bool.not_eq_false'] at hb
    subst hb
    exact gate_exceptIf (h.holds hc)
  | store kind target => cases hg

theorem chain_guarded (c : Command) (g : Modifier) :
    chain (c.guarded g) = (g :: (chain c).1, (chain c).2) := by
  cases c <;> rfl

/-- What a step does, by the modifiers of the command and what stands behind them. -/
theorem step_eq (s : Store) (c : Command) :
    step tags ns c s =
      match gate s (chain c).1 with
      | .ok (pending, true) => finish tags ns pending (chain c).2 s
      | .ok (pending, false) =>
        if (chain c).2.isNone then
          (do deliver ns .failed pending; return [] : Exec (List String)) s
        else .ok [] s
      | .error e => .error e s := by
  unfold step
  cases hc : chain c with
  | mk ms last =>
    show EStateM.bind (inspect fun s => gate s ms) _ s = _
    simp only [EStateM.bind, inspect]
    cases hg : gate s ms with
    | error e => rfl
    | ok p =>
      obtain ⟨pending, passed⟩ := p
      cases passed with
      | true => rfl
      | false =>
        simp only [Bool.false_eq_true, if_false]
        split <;> rfl

/-- Behind a guard that makes no difference, the step is that of the command. -/
theorem step_of_gate {s : Store} {g : Modifier}
    (h : gate s (g :: (chain c).1) = gate s (chain c).1) :
    step tags ns (c.guarded g) s = step tags ns c s := by
  rw [step_eq, step_eq, chain_guarded, h]

/-- A guard that ends the way through the modifiers has passed no store, so even a test has none to
    report its failure to. -/
theorem step_of_gate_false {s : Store} {g : Modifier}
    (h : gate s (g :: (chain c).1) = .ok ([], false)) :
    step tags ns (c.guarded g) s = .ok [] s := by
  rw [step_eq, chain_guarded, h]
  simp only
  split <;> rfl

/-- A guard that holds lets the command do what it does. -/
theorem step_guarded {s : Store} (h : s.Models σ) {g : Modifier}
    (hg : σ.allows g = some true) : step tags ns (c.guarded g) s = step tags ns c s :=
  step_of_gate (h.gate_cons hg)

theorem Steps.guarded {callees : List String} {g : Modifier} (hg : σ.allows g = some true)
    (h : Steps tags ns c σ callees σ') : Steps tags ns (c.guarded g) σ callees σ' := by
  intro s hs
  rw [step_guarded hs hg]
  exact h s hs

theorem Faults.guarded {e : Fault} {g : Modifier} (hg : σ.allows g = some true)
    (h : Fails σ (step tags ns c) e σ') : Fails σ (step tags ns (c.guarded g)) e σ' := by
  intro s hs
  rw [step_guarded hs hg]
  exact h s hs

/-- A guard that does not hold leaves everything as it is. -/
theorem Steps.blocked {g : Modifier} (hg : σ.allows g = some false) :
    Steps tags ns (c.guarded g) σ [] σ := by
  intro s hs
  exact ⟨s, step_of_gate_false (hs.gate_cons_false hg), hs⟩

theorem allows_ifIn {range : Range} (h : σ.regs r = some n) :
    σ.allows (.ifIn r range) = some (range.contains n) := by
  show (σ.regs r).map range.contains = _
  rw [h]
  rfl

theorem contains_exact {m : Int32} : (Range.exact m).contains n = true ↔ n = m := by
  show (decide (m ≤ n) && decide (n ≤ m)) = true ↔ _
  rw [Bool.and_eq_true, decide_eq_true_eq, decide_eq_true_eq, Int32.le_iff_toInt_le,
    Int32.le_iff_toInt_le, ← Int32.toInt_inj]
  omega

theorem allows_ifIn_exact {m : Int32} (h : σ.regs r = some n) :
    σ.allows (.ifIn r (.exact m)) = some (decide (n = m)) := by
  rw [allows_ifIn h, Option.some.injEq, Bool.eq_iff_iff, contains_exact, decide_eq_true_eq]

theorem allows_unlessIn {range : Range} (h : σ.regs r = some n) :
    σ.allows (.unlessIn r range) = some (!range.contains n) := by
  show ((σ.regs r).map range.contains).map (!·) = _
  rw [h]
  rfl

theorem allows_unlessIn_exact {m : Int32} (h : σ.regs r = some n) :
    σ.allows (.unlessIn r (.exact m)) = some (!decide (n = m)) := by
  rw [allows_unlessIn h, Option.some.injEq, Bool.eq_iff_iff, Bool.not_eq_true', Bool.not_eq_true',
    ← Bool.not_eq_true, ← Bool.not_eq_true, contains_exact, decide_eq_true_eq]

/-! ## Steps -/

/-- A command that runs by itself: it neither calls nor has modifiers. -/
inductive Plain : Command → Prop where
  | setScore (r : Register) (n : Int32) : Plain (.setScore r n)
  | addScore (r : Register) (n : Int32) : Plain (.addScore r n)
  | operation (r : Register) (op : ScoreOp) (q : Register) : Plain (.operation r op q)
  | getScore (r : Register) : Plain (.getScore r)
  | append (path : Path) (value : Nbt) : Plain (.append path value)
  | appendFrom (path source : Path) : Plain (.appendFrom path source)
  | setData (path : Path) (value : Nbt) : Plain (.setData path value)
  | setFrom (path source : Path) : Plain (.setFrom path source)
  | remove (path : Path) : Plain (.remove path)
  | getData (path : Path) : Plain (.getData path)
  | addObjective : Plain .addObjective

theorem finish_plain (hc : Plain c) (pending : Pending) :
    finish tags ns pending (some c) = do
      deliver ns (← perform ns c) pending
      return [] := by
  cases hc <;> rfl

theorem chain_plain (hc : Plain c) : chain c = ([], some c) := by
  cases hc <;> rfl

/-- A command that runs by itself does what it performs. -/
theorem Steps.plain {report : Report} (hc : Plain c) (h : Does σ (perform ns c) report σ') :
    Steps tags ns c σ [] σ' := by
  intro s hs
  have hfinish : Does σ (finish tags ns [] (some c)) [] σ' := by
    rw [finish_plain hc]
    exact h.bind ((Does.pure ()).bind (Does.pure []))
  rw [step_eq, chain_plain hc]
  exact hfinish s hs

theorem Faults.plain {e : Fault} (hc : Plain c) (h : Fails σ (perform ns c) e σ') :
    Fails σ (step tags ns c) e σ' := by
  intro s hs
  have hfinish : Fails σ (finish tags ns [] (some c)) e σ' := by
    rw [finish_plain hc]
    exact h.bind_left
  rw [step_eq, chain_plain hc]
  exact hfinish s hs

/-- A command whose report is stored. -/
theorem Steps.stored {report : Report} {kind : StoreKind} {target : StoreTarget} (hc : Plain c)
    (h : Does σ (perform ns c) report σ₁)
    (hs : Does σ₁ (storeNumber ns (report.part kind) target) () σ') :
    Steps tags ns (.execute [.store kind target] c) σ [] σ' := by
  intro s hm
  have hfinish : Does σ (finish tags ns [(kind, target)] (some c)) [] σ' := by
    rw [finish_plain hc]
    exact h.bind ((hs.bind (Does.pure ())).bind (Does.pure []))
  have hchain : chain (.execute [.store kind target] c) = ([.store kind target], some c) := by
    rw [chain, chain_plain hc]
    rfl
  rw [step_eq, hchain]
  exact hfinish s hm

/-- A test stores whether its condition holds. -/
theorem Steps.test {target : StoreTarget} {g : Modifier} {b : Bool} (hg : σ.allows g = some b)
    (hs : Does σ (storeNumber ns (if b then 1 else 0) target) () σ') :
    Steps tags ns (.test [.store .success target, g]) σ [] σ' := by
  intro s hm
  have hchain : chain (.test [.store .success target, g]) = ([.store .success target, g], none) :=
    rfl
  have hgate : gate s [.store .success target, g] = .ok ([(.success, target)], b) := by
    cases b with
    | true =>
      rw [gate, hm.gate_cons hg]
      rfl
    | false =>
      rw [gate, hm.gate_cons_false hg]
      rfl
  rw [step_eq, hchain, hgate]
  cases b with
  | true => exact ((hs.bind (Does.pure ())).bind (Does.pure [])) s hm
  | false => exact ((hs.bind (Does.pure ())).bind (Does.pure [])) s hm

/-- A call names the sequence that it calls. -/
theorem Steps.call {symbol : Symbol} :
    Steps tags ns (.call symbol) σ [symbol.qualifiedName ns] σ := fun s hs => ⟨s, rfl, hs⟩

/-- A call of a tag names the members of the tag. -/
theorem Steps.callTag {tag : Tag} (h : tags.members tag ≠ []) :
    Steps tags ns (.callTag tag) σ (tags.members tag) σ := by
  intro s hs
  refine ⟨s, ?_, hs⟩
  show inspect (fun _ => tagMembers tags tag) s = _
  unfold inspect tagMembers
  cases hm : tags.members tag with
  | nil => exact absurd hm h
  | cons name names => rfl

/-! ## Commands on registers -/

theorem steps_setScore : Steps tags ns (.setScore r n) σ [] (σ.setReg r n) :=
  .plain (.setScore _ _) performs_setScore

theorem steps_addScore {m : Int32} (h : σ.regs r = some m) :
    Steps tags ns (.addScore r n) σ [] (σ.setReg r (m + n)) := by
  have hadd : Does σ (perform ns (.addScore r n)) _ _ := performs_addScore
  rw [h, Option.getD_some] at hadd
  exact .plain (.addScore _ _) hadd

theorem steps_operation {op : ScoreOp} {m : Int32} (hop : op ≠ .swap) (hr : σ.regs r = some m)
    (hq : σ.regs q = some n) :
    Steps tags ns (.operation r op q) σ [] (σ.setReg r (applyOp op m n)) := by
  have hoperation : Does σ (perform ns (.operation r op q)) _ _ := performs_operation hop hq
  rw [hr, Option.getD_some] at hoperation
  exact .plain (.operation _ _ _) hoperation

theorem steps_copy (hq : σ.regs q = some n) : Steps tags ns (.copy r q) σ [] (σ.setReg r n) :=
  .plain (.operation _ _ _) (performs_operation (by decide) hq)

/-- What is loaded is the measure of what lies there, or zero where nothing does. -/
theorem steps_load (hp : Keyed path) : Steps tags ns (.load r path) σ []
    (σ.setReg r (((σ.lookup ns path).map (·.measure)).getD 0)) := by
  cases h : σ.lookup ns path with
  | none => exact .stored (.getData path) (performs_getData_none hp h) stores_score
  | some slot => exact .stored (.getData path) (performs_getData hp h) stores_score

end WasmPack.Machine
