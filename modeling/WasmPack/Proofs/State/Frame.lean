/-
  WasmPack.Proofs.State.Frame

  What a command leaves alone.  Whatever is said about a state without mentioning
  what the command may write still holds behind it, whether it succeeds or not.
  A neutral command writes no constant, and nothing but the lists that compiled
  code works on.
-/
import WasmPack.Proofs.State.Steps

namespace WasmPack

/-! ## What commands write -/

/-- What commands may write: registers, and the values under keys of storages. -/
structure Writes where
  register : Register → Bool
  key : String → Bool

/-- The path leads into a value that may be written. -/
def Path.isWithin (W : Writes) (p : Path) : Bool :=
  match p.segments with
  | .key k :: _ => W.key k
  | _ => false

/-- The store writes only what may be written. -/
def StoreTarget.isWithin (W : Writes) : StoreTarget → Bool
  | .score r => W.register r
  | .storage p _ => p.isWithin W

/-- The modifier is a condition, not a store. -/
def Modifier.IsCondition (g : Modifier) : Prop := ∀ kind target, g ≠ .store kind target

theorem Modifier.isCondition_ifIn (r : Register) (range : Range) : (ifIn r range).IsCondition :=
  fun _ _ h => nomatch h

theorem Modifier.isCondition_unlessIn (r : Register) (range : Range) :
    (unlessIn r range).IsCondition := fun _ _ h => nomatch h

/-- The modifier writes only what may be written. -/
def Modifier.isWithin (W : Writes) : Modifier → Bool
  | .store _ target => target.isWithin W
  | _ => true

/-- The command writes only what may be written. -/
def Command.isWithin (W : Writes) : Command → Bool
  | .setScore r _ => W.register r
  | .addScore r _ => W.register r
  | .operation r op _ => W.register r && decide (op ≠ .swap)
  | .append p _ => p.isWithin W
  | .appendFrom p _ => p.isWithin W
  | .setData p _ => p.isWithin W
  | .setFrom p _ => p.isWithin W
  | .remove p => p.isWithin W
  | .test ms => ms.all (·.isWithin W)
  | .execute ms run => ms.all (·.isWithin W) && run.isWithin W
  | _ => true

theorem Command.isWithin_guarded (W : Writes) (c : Command) (g : Modifier) :
    (c.guarded g).isWithin W = (g.isWithin W && c.isWithin W) := by
  cases c <;> simp [Command.guarded, Command.isWithin, Bool.and_assoc]

/-- What may be written is among what else may be written. -/
structure Writes.Among (W V : Writes) : Prop where
  register : ∀ r, W.register r = true → V.register r = true
  key : ∀ k, W.key k = true → V.key k = true

section Among

variable {W V : Writes} (h : W.Among V)

include h

theorem Path.isWithin_mono {p : Path} (hp : p.isWithin W = true) : p.isWithin V = true := by
  unfold Path.isWithin at hp ⊢
  split at hp
  · exact h.key _ hp
  · cases hp

theorem Modifier.isWithin_mono {m : Modifier} (hm : m.isWithin W = true) : m.isWithin V = true := by
  cases m with
  | store kind target =>
    cases target with
    | score r => exact h.register r hm
    | storage p tag => exact Path.isWithin_mono h hm
  | _ => rfl

theorem Command.isWithin_mono {c : Command} (hc : c.isWithin W = true) : c.isWithin V = true := by
  have hall : ∀ ms : List Modifier, ms.all (·.isWithin W) = true → ms.all (·.isWithin V) = true :=
    fun ms hms => List.all_eq_true.2 fun m hm =>
      Modifier.isWithin_mono h (List.all_eq_true.1 hms m hm)
  induction c with
  | setScore r n => exact h.register r hc
  | addScore r n => exact h.register r hc
  | operation r op q =>
    rw [isWithin, Bool.and_eq_true] at hc ⊢
    exact ⟨h.register r hc.1, hc.2⟩
  | append p v => exact Path.isWithin_mono h hc
  | appendFrom p q => exact Path.isWithin_mono h hc
  | setData p v => exact Path.isWithin_mono h hc
  | setFrom p q => exact Path.isWithin_mono h hc
  | remove p => exact Path.isWithin_mono h hc
  | test ms => exact hall ms hc
  | execute ms run ih =>
    rw [isWithin, Bool.and_eq_true] at hc ⊢
    exact ⟨hall ms hc.1, ih hc.2⟩
  | _ => rfl

end Among

/-! ## What commands call and mention -/

/-- What commands may call. -/
structure Calls where
  symbol : Symbol → Bool
  tag : Tag → Bool

/-- Nothing may be called. -/
def Calls.nothing : Calls := ⟨fun _ => false, fun _ => false⟩

/-- The command calls only what may be called. -/
def Command.callsWithin (C : Calls) : Command → Bool
  | .call symbol => C.symbol symbol
  | .callTag tag => C.tag tag
  | .execute _ run => run.callsWithin C
  | _ => true

theorem Command.callsWithin_guarded (C : Calls) (c : Command) (g : Modifier) :
    (c.guarded g).callsWithin C = c.callsWithin C := by
  cases c <;> rfl

/-- What may be called is among what else may be called. -/
structure Calls.Among (C D : Calls) : Prop where
  symbol : ∀ s, C.symbol s = true → D.symbol s = true
  tag : ∀ t, C.tag t = true → D.tag t = true

theorem Command.callsWithin_mono {C D : Calls} (h : C.Among D) {c : Command}
    (hc : c.callsWithin C = true) : c.callsWithin D = true := by
  induction c with
  | call symbol => exact h.symbol symbol hc
  | callTag tag => exact h.tag tag hc
  | execute ms run ih => exact ih hc
  | _ => rfl

/-- The paths that a modifier mentions. -/
def Modifier.paths : Modifier → List Path
  | .store _ (.storage p _) => [p]
  | _ => []

/-- The paths that a command mentions. -/
def Command.paths : Command → List Path
  | .append p _ => [p]
  | .appendFrom p q => [p, q]
  | .setData p _ => [p]
  | .setFrom p q => [p, q]
  | .remove p => [p]
  | .getData p => [p]
  | .test ms => ms.flatMap Modifier.paths
  | .execute ms run => ms.flatMap Modifier.paths ++ run.paths
  | _ => []

theorem Command.paths_guarded {c : Command} {g : Modifier} :
    (c.guarded g).paths = g.paths ++ c.paths := by
  cases c <;> simp [guarded, paths]

theorem Command.mem_paths_guarded {c : Command} {g : Modifier} {p : Path} :
    p ∈ (c.guarded g).paths ↔ p ∈ g.paths ∨ p ∈ c.paths := by
  rw [paths_guarded, List.mem_append]

/-- A condition mentions no path. -/
theorem Modifier.IsCondition.paths_eq {g : Modifier} (hg : g.IsCondition) : g.paths = [] := by
  cases g with
  | store kind target => exact absurd rfl (hg kind target)
  | _ => rfl

/-- The keys that a storage is there for. -/
def Storage.keys : Storage → List String
  | shared => ["stack", "frames", "conditions", "tmp", "mem", "zero_page"]
  | own => ["mems", "globals"]

/-- The path leads into a value that its storage is there for. -/
def Path.isHome (p : Path) : Bool :=
  match p.segments with
  | .key k :: _ => k ∈ p.storage.keys
  | _ => false

/-- The command mentions only values that storages are there for. -/
def Command.staysHome (c : Command) : Bool := c.paths.all Path.isHome

theorem Command.staysHome_guarded {c : Command} {g : Modifier} (hg : g.paths = []) :
    (c.guarded g).staysHome = c.staysHome := by
  rw [staysHome, paths_guarded, hg]
  rfl

/-- The command writes and mentions only what may be written, and calls only what may be called. -/
def Command.staysIn (W : Writes) (C : Calls) (c : Command) : Bool :=
  c.isWithin W && c.callsWithin C && c.paths.all (·.isWithin W)

section StaysIn

variable {W V : Writes} {C D : Calls} {c : Command} {g : Modifier}

theorem Command.isWithin_of_staysIn (hc : c.staysIn W C = true) : c.isWithin W = true :=
  (Bool.and_eq_true_iff.1 (Bool.and_eq_true_iff.1 hc).1).1

theorem Command.callsWithin_of_staysIn (hc : c.staysIn W C = true) : c.callsWithin C = true :=
  (Bool.and_eq_true_iff.1 (Bool.and_eq_true_iff.1 hc).1).2

theorem Command.paths_of_staysIn (hc : c.staysIn W C = true) : ∀ p ∈ c.paths, p.isWithin W = true :=
  List.all_eq_true.1 (Bool.and_eq_true_iff.1 hc).2

theorem Command.staysIn_mono (hW : W.Among V) (hC : C.Among D) (hc : c.staysIn W C = true) :
    c.staysIn V D = true := by
  simp only [staysIn, Bool.and_eq_true, List.all_eq_true] at hc ⊢
  obtain ⟨⟨hwithin, hcalls⟩, hpaths⟩ := hc
  exact ⟨⟨isWithin_mono hW hwithin, callsWithin_mono hC hcalls⟩,
    fun p hp => Path.isWithin_mono hW (hpaths p hp)⟩

end StaysIn

/-! ## Neutral commands -/

/-- The register is not a constant. -/
def Register.isWork : Register → Bool
  | .const _ => false
  | _ => true

/-- The keys of what code works on. -/
def workKeys : List String := ["stack", "frames", "conditions", "globals", "tmp"]

/-- The registers that are not constants, and what code works on. -/
def Writes.work : Writes := ⟨Register.isWork, fun k => k ∈ workKeys⟩

@[simp] theorem Writes.register_work (r : Register) : Writes.work.register r = r.isWork := rfl

/-- The path leads into something that code works on. -/
abbrev Path.isWork (p : Path) : Bool := p.isWithin .work

/-- The modifier is neutral. -/
abbrev Modifier.isNeutral (m : Modifier) : Bool := m.isWithin .work

/-- The command writes only registers that are not constants, and what code works on. -/
abbrev Command.isNeutral (c : Command) : Bool := c.isWithin .work

theorem Fields.get?_erase_of_ne {α : Type} {j k : String} {fields : Fields α} (h : j ≠ k) :
    Fields.get? j (Fields.erase k fields) = Fields.get? j fields := by
  induction fields with
  | nil => rfl
  | cons e fields ih =>
    rw [erase]
    split
    · rename_i hk
      have hj : e.1 ≠ j := by
        rintro rfl
        exact h hk
      rw [get?, if_neg hj]
    · rw [get?, get?]
      split
      · rfl
      · exact ih

namespace Machine

variable {α β : Type} {tags : TagTable} {ns : String} {σ τ : State} {s : Store} {c : Command}
  {path : Path} {r : Register} {I : State → Prop}

/-! ## What holds behind work -/

/-- The store that work leaves, whether or not it succeeds. -/
def after (work : Exec α) (s : Store) : Store :=
  match work s with
  | .ok _ s' => s'
  | .error _ s' => s'

/-- Where something holds, it holds behind the work, whether or not the work succeeds. -/
def Maintains (I : State → Prop) (work : Exec α) : Prop :=
  ∀ σ s, I σ → s.Models σ → ∃ σ', I σ' ∧ (after work s).Models σ'

namespace Maintains

theorem pure (a : α) : Maintains I (pure a) := fun σ _ hI hs => ⟨σ, hI, hs⟩

theorem bind {x : Exec α} {f : α → Exec β} (hx : Maintains I x) (hf : ∀ a, Maintains I (f a)) :
    Maintains I (x >>= f) := by
  intro σ s hI hs
  obtain ⟨σ₁, hI₁, hs₁⟩ := hx σ s hI hs
  have hbind : (x >>= f) s = EStateM.bind x f s := rfl
  rw [after, hbind, EStateM.bind]
  rw [after] at hs₁
  cases hxs : x s with
  | ok a s₁ =>
    rw [hxs] at hs₁
    exact hf a σ₁ s₁ hI₁ hs₁
  | error e s₁ =>
    rw [hxs] at hs₁
    exact ⟨σ₁, hI₁, hs₁⟩

theorem inspect (f : Store → Except Fault α) : Maintains I (inspect f) := by
  intro σ s hI hs
  refine ⟨σ, hI, ?_⟩
  rw [after, Machine.inspect]
  cases f s <;> exact hs

theorem throw (e : Fault) : Maintains I (throw e : Exec α) := fun σ _ hI hs => ⟨σ, hI, hs⟩

theorem forM {xs : List α} {f : α → Exec PUnit} (h : ∀ x ∈ xs, Maintains I (f x)) :
    Maintains I (xs.forM f) := by
  induction xs with
  | nil => exact .pure _
  | cons x xs ih =>
    exact .bind (h x List.mem_cons_self) fun _ => ih fun y hy => h y (List.mem_cons_of_mem x hy)

end Maintains

/-! ## Changes of one value -/

/-- The states agree but for the value under a key of a storage. -/
def AgreeBut (id key : String) (σ τ : State) : Prop :=
  τ.regs = σ.regs ∧ ∀ i k, i ≠ id ∨ k ≠ key → τ.cells i k = σ.cells i k

/-- A change that leaves other fields alone. -/
def ChangesKey (key : String) (f : Nbt → Option β × Nbt) : Prop :=
  ∀ fields, ∃ fields', (f (.compound fields)).2 = .compound fields' ∧
    ∀ j, j ≠ key → Fields.get? j fields' = Fields.get? j fields

theorem Store.Models.change_key_frame (h : s.Models σ) {id key : String}
    {f : Nbt → Option β × Nbt} (hf : ChangesKey key f) :
    ∃ τ, (s.change id f).2.Models τ ∧ AgreeBut id key σ τ := by
  obtain ⟨fields, hfields, hcells⟩ := h.exists_fields id
  obtain ⟨fields', hf', hother⟩ := hf fields
  let τ : State := ⟨σ.regs, fun i k => if i = id then Fields.get? k fields' else σ.cells i k⟩
  have hpair : f (.compound fields) = ((f (.compound fields)).1, .compound fields') := by
    rw [← hf']
  obtain ⟨s', hs, hm⟩ := h.change (τ := τ) hfields hpair rfl (fun k => (if_pos rfl).symm)
    fun i hi => funext fun k => if_neg hi
  refine ⟨τ, by rw [hs]; exact hm, rfl, fun i k hik => ?_⟩
  show (if i = id then _ else _) = _
  split
  · rename_i hi
    subst hi
    obtain hik | hik := hik
    · exact absurd rfl hik
    · rw [hother k hik, hcells]
  · rfl

theorem changesKey_append {k : String} {rest : List Segment} {value : Nbt} :
    ChangesKey k (Nbt.append (.key k :: rest) value) := fun _ =>
  ⟨_, rfl, fun _ hj => Fields.get?_modify_of_ne hj⟩

theorem changesKey_write {k : String} {rest : List Segment} {value : Nbt} :
    ChangesKey k (Nbt.write (.key k :: rest) value) := by
  intro fields
  by_cases hr : rest = []
  · subst hr
    exact ⟨_, rfl, fun _ hj => Fields.get?_insert_of_ne hj⟩
  · rw [Nbt.write_key hr]
    exact ⟨_, rfl, fun _ hj => Fields.get?_modify_of_ne hj⟩

theorem changesKey_remove {k : String} {rest : List Segment} :
    ChangesKey k (Nbt.remove (.key k :: rest)) := by
  intro fields
  by_cases hr : rest = []
  · subst hr
    have hremove : Nbt.remove [.key k] (.compound fields) =
        Nbt.removeChild (.key k) (.compound fields) := rfl
    rw [hremove, Nbt.removeChild]
    cases Fields.get? k fields with
    | none => exact ⟨fields, rfl, fun _ _ => rfl⟩
    | some v => exact ⟨_, rfl, fun _ hj => Fields.get?_erase_of_ne hj⟩
  · rw [Nbt.remove_key hr]
    exact ⟨_, rfl, fun _ hj => Fields.get?_modify_of_ne hj⟩

/-! ## Commands leave alone what they do not write -/

/-- What does not depend on what may be written. -/
structure Ignores (W : Writes) (I : State → Prop) : Prop where
  setReg : ∀ {σ r} n, I σ → W.register r = true → I (σ.setReg r n)
  agree : ∀ {σ τ id key}, I σ → W.key key = true → AgreeBut id key σ τ → I τ

namespace Ignores

variable {W V : Writes} {J : State → Prop} {id k : String} {v : Nbt}

/-- What does not depend on more does not depend on less. -/
theorem mono (hI : Ignores V I) (h : W.Among V) : Ignores W I :=
  ⟨fun n hσ hr => hI.setReg n hσ (h.register _ hr), fun hσ hk => hI.agree hσ (h.key _ hk)⟩

theorem and (hI : Ignores W I) (hJ : Ignores W J) : Ignores W (fun σ => I σ ∧ J σ) :=
  ⟨fun n hσ hr => ⟨hI.setReg n hσ.1 hr, hJ.setReg n hσ.2 hr⟩,
    fun hσ hk h => ⟨hI.agree hσ.1 hk h, hJ.agree hσ.2 hk h⟩⟩

theorem setCell (hI : Ignores W I) (hk : W.key k = true) (hσ : I σ) : I (σ.setCell id k v) := by
  have hagree : AgreeBut id k σ (σ.setCell id k v) := ⟨rfl, fun i j hij => by
    rw [State.cells_setCell, if_neg fun h => hij.elim (fun hi => hi h.1) (fun hj => hj h.2)]⟩
  exact hI.agree hσ hk hagree

/-- Everything ignores that nothing is written. -/
theorem nothing : Ignores ⟨fun _ => false, fun _ => false⟩ I :=
  ⟨fun _ _ h => (nomatch h), fun _ h => (nomatch h)⟩

end Ignores

/-- What does not depend on what code works on. -/
abbrev IgnoresWork : (State → Prop) → Prop := Ignores .work

end Machine

namespace Path

open Machine

variable {β : Type} {ns : String} {p : Path} {I : State → Prop}

/-- Whatever becomes of the value under the key that the path begins with, the property stays. -/
def Spares (ns : String) (I : State → Prop) (p : Path) : Prop :=
  ∃ k rest, p.segments = .key k :: rest ∧
    ∀ σ τ, I σ → AgreeBut (p.storage.id ns) k σ τ → I τ

theorem spares_of_isWithin {W : Writes} (hI : Ignores W I) (hp : p.isWithin W = true) :
    p.Spares ns I := by
  unfold isWithin at hp
  split at hp
  · rename_i k rest hsegments
    exact ⟨k, rest, hsegments, fun σ τ hσ hagree => hI.agree hσ hp hagree⟩
  · cases hp

namespace Spares

variable (hp : p.Spares ns I)

include hp

theorem changeAt {f : List Segment → Nbt → Option β × Nbt}
    (hf : ∀ k rest, p.segments = .key k :: rest → ChangesKey k (f p.segments)) :
    Maintains I (changeAt ns p f) := by
  intro σ s hσ hs
  obtain ⟨k, rest, hsegments, hstays⟩ := hp
  obtain ⟨τ, hτ, hagree⟩ := hs.change_key_frame (hf k rest hsegments)
  refine ⟨τ, hstays σ τ hσ hagree, ?_⟩
  rw [after, Machine.changeAt]
  generalize s.change (p.storage.id ns) (f p.segments) = result at hτ
  obtain ⟨b | b, s'⟩ := result <;> exact hτ

theorem write (value : Nbt) : Maintains I (write ns p value) :=
  changeAt hp fun k rest hk => by
    rw [hk]
    exact changesKey_write

theorem remove : Maintains I (remove ns p) :=
  changeAt hp fun k rest hk => by
    rw [hk]
    exact changesKey_remove

theorem append (value : Nbt) : Maintains I (append ns p value) := by
  refine .bind (changeAt hp fun k rest hk => ?_) fun pushed => ?_
  · rw [hk]
    exact changesKey_append
  · cases pushed
    · exact .throw _
    · exact .pure _

end Spares

end Path

namespace Machine

variable {α β : Type} {tags : TagTable} {ns : String} {σ τ : State} {s : Store} {c : Command}
  {path : Path} {r : Register} {I : State → Prop}

namespace Maintains

variable {W : Writes} (hI : Ignores W I)

include hI

theorem setScore (hr : W.register r = true) (n : Int32) : Maintains I (setScore r n) := fun σ _ hσ hs =>
  ⟨σ.setReg r n, hI.setReg n hσ hr, hs.setReg r n⟩

theorem changeAt {f : List Segment → Nbt → Option β × Nbt} (hp : path.isWithin W = true)
    (hf : ∀ k rest, path.segments = .key k :: rest → ChangesKey k (f path.segments)) :
    Maintains I (changeAt ns path f) := (Path.spares_of_isWithin hI hp).changeAt hf

theorem write (hp : path.isWithin W = true) (value : Nbt) : Maintains I (write ns path value) :=
  (Path.spares_of_isWithin hI hp).write value

theorem remove (hp : path.isWithin W = true) : Maintains I (remove ns path) :=
  (Path.spares_of_isWithin hI hp).remove

theorem append (hp : path.isWithin W = true) (value : Nbt) : Maintains I (append ns path value) :=
  (Path.spares_of_isWithin hI hp).append value

theorem storeNumber {target : StoreTarget} (h : target.isWithin W = true) (n : Int32) :
    Maintains I (storeNumber ns n target) := by
  cases target with
  | score r => exact setScore hI h n
  | storage p tag => exact .bind (write hI h _) fun _ => .pure _

/-- A command without modifiers. -/
theorem perform (hc : c.isWithin W = true) : Maintains I (perform ns c) := by
  cases c with
  | setScore r n => exact .bind (setScore hI hc n) fun _ => .pure _
  | addScore r n => exact .bind (.inspect _) fun _ => .bind (setScore hI hc _) fun _ => .pure _
  | operation r op q =>
    unfold Command.isWithin at hc
    rw [Bool.and_eq_true, decide_eq_true_eq] at hc
    refine .bind (.inspect _) fun _ => .bind (.inspect _) fun _ => ?_
    simp only [if_neg hc.2]
    exact .bind (setScore hI hc.1 _) fun _ => .pure _
  | getScore r => exact .bind (.inspect _) fun _ => .pure _
  | append p v => exact .bind (append hI hc v) fun _ => .pure _
  | appendFrom p q => exact .bind (.inspect _) fun _ => .bind (append hI hc _) fun _ => .pure _
  | setData p v => exact .bind (write hI hc v) fun _ => .pure _
  | setFrom p q => exact .bind (.inspect _) fun _ => .bind (write hI hc _) fun _ => .pure _
  | remove p => exact .bind (remove hI hc) fun _ => .pure _
  | getData p => exact .inspect _
  | addObjective => exact .pure _
  | call symbol => exact .throw _
  | callTag tag => exact .throw _
  | test ms => exact .throw _
  | execute ms run => exact .throw _

end Maintains

/-- The stores that wait for a report are among the modifiers. -/
theorem store_mem_of_gate {ms : List Modifier} {pending : Pending} {passed : Bool}
    (h : gate s ms = .ok (pending, passed)) : ∀ p ∈ pending, Modifier.store p.1 p.2 ∈ ms := by
  induction ms generalizing pending passed with
  | nil =>
    cases h
    exact fun p hp => nomatch hp
  | cons m ms ih =>
    -- A condition adds no store of its own: what waits comes from the modifiers behind it.
    have htail : ∀ {pending passed}, gate s ms = .ok (pending, passed) →
        ∀ p ∈ pending, Modifier.store p.1 p.2 ∈ m :: ms := fun h p hp =>
      List.mem_cons_of_mem m (ih h p hp)
    cases m with
    | onlyIf cond =>
      rw [gate] at h
      obtain ⟨b, -, h⟩ := except_bind_eq_ok.1 h
      cases b with
      | true => exact htail h
      | false =>
        cases h
        exact fun p hp => nomatch hp
    | exceptIf cond =>
      rw [gate] at h
      obtain ⟨b, -, h⟩ := except_bind_eq_ok.1 h
      cases b with
      | true =>
        cases h
        exact fun p hp => nomatch hp
      | false => exact htail h
    | store kind target =>
      rw [gate] at h
      obtain ⟨⟨inner, b⟩, hg, h⟩ := except_bind_eq_ok.1 h
      cases h
      intro p hp
      obtain rfl | hp := List.mem_cons.1 hp
      · exact List.mem_cons_self
      · exact htail hg p hp

/-- The modifiers of a command, and the command behind them. -/
theorem chain_within {W : Writes} (hc : c.isWithin W = true) :
    (∀ m ∈ (chain c).1, m.isWithin W = true) ∧ ∀ d, (chain c).2 = some d → d.isWithin W = true := by
  have hbare : chain c = ([], some c) → (∀ m ∈ (chain c).1, m.isWithin W = true) ∧
      ∀ d, (chain c).2 = some d → d.isWithin W = true := by
    intro h
    rw [h]
    refine ⟨fun _ hm => (nomatch hm), fun d hd => ?_⟩
    cases hd
    exact hc
  induction c with
  | test ms => exact ⟨List.all_eq_true.1 hc, fun _ hd => (nomatch hd)⟩
  | execute ms run ih =>
    have hc : (ms.all (·.isWithin W) && run.isWithin W) = true := hc
    rw [Bool.and_eq_true] at hc
    have hrun := ih hc.2 fun h => by
      rw [h]
      refine ⟨fun _ hm => (nomatch hm), fun d hd => ?_⟩
      cases hd
      exact hc.2
    refine ⟨fun m hm => ?_, hrun.2⟩
    obtain hm | hm := List.mem_append.1 hm
    · exact List.all_eq_true.1 hc.1 m hm
    · exact hrun.1 m hm
  | _ => exact hbare rfl

/-- What the modifiers of a command and the command behind them mention, it mentions. -/
theorem chain_paths : (∀ m ∈ (chain c).1, ∀ p ∈ m.paths, p ∈ c.paths) ∧
    ∀ d, (chain c).2 = some d → ∀ p ∈ d.paths, p ∈ c.paths := by
  induction c with
  | test ms => exact ⟨fun m hm p hp => List.mem_flatMap.2 ⟨m, hm, hp⟩, fun _ hd => (nomatch hd)⟩
  | execute ms run ih =>
    refine ⟨fun m hm p hp => ?_, fun d hd p hp => List.mem_append_right _ (ih.2 d hd p hp)⟩
    obtain hm | hm := List.mem_append.1 hm
    · exact List.mem_append_left _ (List.mem_flatMap.2 ⟨m, hm, hp⟩)
    · exact List.mem_append_right _ (ih.1 m hm p hp)
  | _ =>
    refine ⟨fun _ hm => (nomatch hm), fun d hd => ?_⟩
    cases hd
    exact fun p hp => hp

/-- A step maintains what the stores of the command, and the command behind its modifiers,
    maintain. -/
theorem Maintains.of_chain
    (hstore : ∀ kind target, .store kind target ∈ (chain c).1 → ∀ n,
      Maintains I (Machine.storeNumber ns n target))
    (hlast : ∀ d, (chain c).2 = some d → Maintains I (Machine.perform ns d)) :
    Maintains I (step tags ns c) := by
  -- Only two things write: the stores that wait for the report, and the last command itself.
  have hdeliver : ∀ {pending : Pending}, (∀ p ∈ pending, Modifier.store p.1 p.2 ∈ (chain c).1) →
      ∀ report, Maintains I (Machine.deliver ns report pending) := fun hp report =>
    .forM fun p hmem => hstore _ _ (hp p hmem) _
  have hfinish : ∀ {pending : Pending}, (∀ p ∈ pending, Modifier.store p.1 p.2 ∈ (chain c).1) →
      Maintains I (finish tags ns pending (chain c).2) := by
    intro pending hp
    unfold finish
    split
    · exact .bind (hdeliver hp _) fun _ => .pure _
    · split
      · exact .pure _
      · exact .throw _
    · split
      · exact .inspect _
      · exact .throw _
    · rename_i d _ _ hd
      exact .bind (hlast d hd) fun _ => .bind (hdeliver hp _) fun _ => .pure _
  intro σ s hσ hs
  rw [after, step_eq]
  cases hg : gate s (chain c).1 with
  | error e => exact ⟨σ, hσ, hs⟩
  | ok result =>
    obtain ⟨pending, passed⟩ := result
    have hp := store_mem_of_gate hg
    cases passed with
    | true => exact hfinish hp σ s hσ hs
    | false =>
      by_cases hn : (chain c).2.isNone = true
      · simp only [hn, if_true]
        exact Maintains.bind (hdeliver hp _) (fun _ => .pure ([] : List String)) σ s hσ hs
      · simp only [hn, Bool.false_eq_true, if_false]
        exact ⟨σ, hσ, hs⟩

/-- A command maintains whatever does not depend on what it may write. -/
theorem Maintains.step {W : Writes} (hI : Ignores W I) (hc : c.isWithin W = true) :
    Maintains I (step tags ns c) :=
  have ⟨hms, hlast⟩ := chain_within hc
  .of_chain (fun _ _ hm _ => storeNumber hI (hms _ hm) _) fun d hd => perform hI (hlast d hd)

/-- Behind a guard a command does what it does, or nothing. -/
theorem Maintains.guarded {g : Modifier} (hg : g.IsCondition)
    (h : Maintains I (Machine.step tags ns c)) :
    Maintains I (Machine.step tags ns (c.guarded g)) := by
  intro σ s hσ hs
  -- A condition lets the other modifiers decide, stops the command, or is a fault itself.
  have hgate : ∀ ms, gate s (g :: ms) = gate s ms ∨ gate s (g :: ms) = .ok ([], false) ∨
      ∃ e, gate s (g :: ms) = .error e := by
    intro ms
    cases g with
    | onlyIf cond =>
      rw [gate]
      cases holds s cond with
      | error e => exact .inr (.inr ⟨e, rfl⟩)
      | ok b =>
        cases b
        · exact .inr (.inl rfl)
        · exact .inl rfl
    | exceptIf cond =>
      rw [gate]
      cases holds s cond with
      | error e => exact .inr (.inr ⟨e, rfl⟩)
      | ok b =>
        cases b
        · exact .inl rfl
        · exact .inr (.inl rfl)
    | store kind target => exact absurd rfl (hg kind target)
  obtain hgs | hgs | ⟨e, hgs⟩ := hgate (chain c).1
  · rw [after, step_of_gate hgs]
    exact h σ s hσ hs
  · rw [after, step_of_gate_false hgs]
    exact ⟨σ, hσ, hs⟩
  · rw [after, step_eq, chain_guarded, hgs]
    exact ⟨σ, hσ, hs⟩

/-- A step maintains what does not depend on registers, if it does not depend on what becomes of the
    values that the command mentions. -/
theorem Maintains.of_paths (hreg : ∀ {σ r} n, I σ → I (σ.setReg r n))
    (hpaths : ∀ p ∈ c.paths, p.Spares ns I) : Maintains I (Machine.step tags ns c) := by
  have hI : Ignores ⟨fun _ => true, fun _ => false⟩ I :=
    ⟨fun n hσ _ => hreg n hσ, fun _ h => nomatch h⟩
  refine .of_chain (fun kind target hmem n => ?_) fun d hd => ?_
  · cases target with
    | score r => exact .setScore hI rfl n
    | storage p tag =>
      have hp := hpaths p (chain_paths.1 _ hmem p List.mem_cons_self)
      exact .bind (hp.write _) fun _ => .pure _
  · have hd : ∀ p ∈ d.paths, p.Spares ns I := fun p hp => hpaths p (chain_paths.2 d hd p hp)
    cases d with
    | operation r op q =>
      refine .bind (.inspect _) fun a => .bind (.inspect _) fun b => ?_
      dsimp only
      split
      · exact .bind (.setScore hI rfl _) fun _ => .bind (.setScore hI rfl _) fun _ => .pure _
      · exact .bind (.setScore hI rfl _) fun _ => .pure _
    | append p v => exact .bind ((hd p List.mem_cons_self).append v) fun _ => .pure _
    | appendFrom p q =>
      exact .bind (.inspect _) fun _ => .bind ((hd p List.mem_cons_self).append _) fun _ => .pure _
    | setData p v => exact .bind ((hd p List.mem_cons_self).write v) fun _ => .pure _
    | setFrom p q =>
      exact .bind (.inspect _) fun _ => .bind ((hd p List.mem_cons_self).write _) fun _ => .pure _
    | remove p => exact .bind (hd p List.mem_cons_self).remove fun _ => .pure _
    | test ms => exact .throw _
    | execute ms run => exact .throw _
    | _ => exact .perform hI rfl

/-! ## Commands that are not neutral -/

/-- From a state the work leaves one where something holds, whether or not it succeeds. -/
def Leaves (σ : State) (work : Exec α) (I : State → Prop) : Prop :=
  ∀ s, s.Models σ → ∃ σ', I σ' ∧ (after work s).Models σ'

theorem Maintains.of_leaves {work : Exec α} (h : ∀ σ, I σ → Leaves σ work I) :
    Maintains I work := fun σ s hσ hs => h σ hσ s hs

theorem Leaves.does {work : Exec α} {a : α} (h : Does σ work a τ) (hτ : I τ) :
    Leaves σ work I := by
  intro s hs
  obtain ⟨s', hrun, hs'⟩ := h s hs
  exact ⟨τ, hτ, by rw [after, hrun]; exact hs'⟩

theorem Leaves.fails {work : Exec α} {e : Fault} (h : Fails σ work e τ) (hτ : I τ) :
    Leaves σ work I := by
  intro s hs
  obtain ⟨s', hrun, hs'⟩ := h s hs
  exact ⟨τ, hτ, by rw [after, hrun]; exact hs'⟩

section Changes

variable {k : String} {rest : List Segment} {value : Nbt} {tag : NumericTag} {n : Int32}

/-- Setting a value inside the one under a key. -/
theorem Leaves.setData (hp : path.segments = .key k :: rest) (hrest : rest ≠ []) (hσ : I σ)
    (h : ∀ v, σ.cells (path.storage.id ns) k = some v → Nbt.write rest value v = (none, v) ∨
      ∃ b v', Nbt.write rest value v = (some b, v') ∧ I (σ.setCell (path.storage.id ns) k v')) :
    Leaves σ (Machine.perform ns (.setData path value)) I := by
  have hnone : (∀ v, σ.cells (path.storage.id ns) k = some v → Nbt.write rest value v = (none, v)) →
      Leaves σ (Machine.perform ns (.setData path value)) I := fun hw => by
    have hfail : Fails σ (Machine.write ns path value) _ σ :=
      fun s hs => hs.write_deep_none hp hrest hw
    exact .fails hfail.bind_left hσ
  cases hk : σ.cells (path.storage.id ns) k with
  | none => exact hnone fun v hv => nomatch hk.symm.trans hv
  | some v =>
    obtain hw | ⟨b, v', hw, hI⟩ := h v hk
    · refine hnone fun u hu => ?_
      cases Option.some.inj (hk.symm.trans hu)
      exact hw
    · exact .does (performs_setData hp hrest hk hw) hI

/-- Where nothing can be appended to, appending fails. -/
theorem Fails.append (hp : path.segments = .key k :: rest)
    (h : ∀ v, σ.cells (path.storage.id ns) k = some v → Nbt.append rest value v = (none, v)) :
    Fails σ (Machine.perform ns (.append path value)) (.missingPath (path.render ns)) σ := by
  have hfail : Fails σ (Machine.append ns path value) (.missingPath (path.render ns)) σ :=
    Fails.bind_left fun s hs => hs.changeAt_key_none
      (fun fields => by rw [hp]; exact Nbt.modifyAt_key _) h
  exact hfail.bind_left

/-- Appending to a value inside the one under a key. -/
theorem Leaves.append (hp : path.segments = .key k :: rest) (hσ : I σ)
    (h : ∀ v, σ.cells (path.storage.id ns) k = some v → Nbt.append rest value v = (none, v) ∨
      ∃ v', Nbt.append rest value v = (some true, v') ∧ I (σ.setCell (path.storage.id ns) k v')) :
    Leaves σ (Machine.perform ns (.append path value)) I := by
  have hnone : (∀ v, σ.cells (path.storage.id ns) k = some v → Nbt.append rest value v = (none, v)) →
      Leaves σ (Machine.perform ns (.append path value)) I := fun ha => .fails (.append hp ha) hσ
  cases hk : σ.cells (path.storage.id ns) k with
  | none => exact hnone fun v hv => nomatch hk.symm.trans hv
  | some v =>
    obtain ha | ⟨v', ha, hI⟩ := h v hk
    · refine hnone fun u hu => ?_
      cases Option.some.inj (hk.symm.trans hu)
      exact ha
    · exact .does (performs_append hp hk ha) hI

/-- Where a value comes from a path, something must be there. -/
theorem Leaves.require {source : Path} {work : Nbt → Exec α} (hp : Keyed source) (hσ : I σ)
    (h : ∀ slot, σ.lookup ns source = some slot → Leaves σ (work slot.toNbt) I) :
    Leaves σ (Machine.require ns source >>= work) I := by
  cases hl : σ.lookup ns source with
  | none => exact .fails (Fails.require hp hl).bind_left hσ
  | some slot =>
    intro s hs
    obtain ⟨s', hrun, hs'⟩ := Does.require hp hl s hs
    have hbind : (Machine.require ns source >>= work) s =
        EStateM.bind (Machine.require ns source) work s := rfl
    rw [after, hbind, EStateM.bind, hrun]
    exact h slot hl s' hs'

/-- A command without modifiers, by what it performs. -/
theorem Maintains.plain (hc : Plain c) (h : ∀ σ, I σ → Leaves σ (Machine.perform ns c) I) :
    Maintains I (Machine.step tags ns c) := by
  have hfinish : Maintains I (Machine.finish tags ns [] (some c)) := by
    rw [finish_plain hc]
    exact .bind (.of_leaves h) fun _ => .bind (.pure _) fun _ => .pure _
  intro σ s hσ hs
  rw [after, step_eq, chain_plain hc]
  exact hfinish σ s hσ hs

/-- A score that is stored along a path. -/
theorem Maintains.saveAs
    (h : ∀ n σ, I σ → Leaves σ (Machine.perform ns (.setData path (numberAs n tag))) I) :
    Maintains I (Machine.step tags ns (.saveAs path tag r)) := by
  have hpure : ∀ {α : Type} (f : Bool → α) n s,
      after (Machine.write ns path (numberAs n tag) >>= fun b => Pure.pure (f b)) s =
        after (Machine.write ns path (numberAs n tag)) s := by
    intro α f n s
    show after (EStateM.bind _ _) s = _
    rw [after, after, EStateM.bind]
    cases Machine.write ns path (numberAs n tag) s <;> rfl
  have hstore : ∀ n, Maintains I (Machine.storeNumber ns n (.storage path tag)) := by
    intro n σ s hσ hs
    have hset := h n σ hσ s hs
    have hperform : after (Machine.perform ns (.setData path (numberAs n tag))) s =
        after (Machine.write ns path (numberAs n tag)) s := hpure Report.ofChange n s
    have hdiscard : after (Machine.storeNumber ns n (.storage path tag)) s =
        after (Machine.write ns path (numberAs n tag)) s := hpure (fun _ => ()) n s
    rw [hperform] at hset
    rw [hdiscard]
    exact hset
  have hfinish : Maintains I (Machine.finish tags ns [(.result, .storage path tag)]
      (some (.getScore r))) :=
    .bind (.bind (.inspect _) fun _ => .pure _) fun _ =>
      .bind (.bind (hstore _) fun _ => .pure _) fun _ => .pure _
  intro σ s hσ hs
  rw [after, step_eq]
  exact hfinish σ s hσ hs

end Changes

end Machine

end WasmPack
