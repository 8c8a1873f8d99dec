/-
  WasmPack.Proofs.Execution.Frames

  What compiled code does to frames.  A function works in the innermost frame,
  which keeps its size while the body runs; what is below it stays as it is; and
  behind a call the frame of the callee is gone.
-/
import WasmPack.Proofs.Execution.Discipline
import WasmPack.Proofs.Execution.Linked

namespace WasmPack

namespace Nbt

variable {below own : List Nbt} {value : Nbt} {i : Int32} {j : Nat}

/-! ## Lists of lists -/

/-- A list of values. -/
abbrev entries (values : List Nbt) : Nbt := listOf id values

theorem entries_inj {xs ys : List Nbt} : entries xs = entries ys ↔ xs = ys := by
  simp [entries, listOf]

theorem position?_top (below : List Nbt) {x : Nbt} :
    position? (-1) (below ++ [x]).length = some below.length := by
  rw [position?_last (by simp)]
  simp

theorem set_top {x y : Nbt} : (below ++ [x]).set below.length y = below ++ [y] := by
  rw [List.set_append_right _ _ (Nat.le_refl _), Nat.sub_self, List.set_cons_zero]

theorem getElem?_top {x : Nbt} : (below ++ [x])[below.length]? = some x := by simp

theorem append_top : append [.index (-1)] value (entries (below ++ [entries own])) =
    (some true, entries (below ++ [entries (own ++ [value])])) := by
  have hpush : append [] value (entries own) = (some true, entries (own ++ [value])) :=
    append_listOf (f := id) (x := value)
  have hdeep := append_listOf_deep (f := id) (y := entries (own ++ [value]))
    (position?_top below) getElem?_top hpush
  rwa [set_top] at hdeep

theorem write_top (below : List Nbt) (value : Nbt) (hp : position? i own.length = some j) :
    ∃ b, write [.index (-1), .index i] value (entries (below ++ [entries own])) =
      (some b, entries (below ++ [entries (own.set j value)])) := by
  obtain ⟨b, hb⟩ := write_listOf (f := id) (y := value) hp
  have hdeep := write_listOf_deep (f := id) (y := entries (own.set j value))
    (List.cons_ne_nil _ _) (position?_top below) getElem?_top hb
  rw [set_top] at hdeep
  exact ⟨b, hdeep⟩

theorem lookup_top (hp : position? i own.length = some j) :
    ∃ slot, (entries (below ++ [entries own])).lookup [.index (-1), .index i] = some slot := by
  have hj := lt_of_position? hp
  have hin : (entries own).lookup [.index i] = some (.stored own[j]) :=
    lookup_listOf (f := id) hp (List.getElem?_eq_getElem hj)
  exact ⟨.stored own[j], (lookup_listOf (position?_top below) getElem?_top).trans hin⟩

end Nbt

/-- Frames alone. -/
def Writes.frames : Writes := ⟨fun _ => false, fun k => decide (k = "frames")⟩

namespace Machine

open Compile Wasm Nbt

variable {code : Code} {declares : String → IndexSpaces → Prop} {tags : TagTable} {ns : String}
  {spaces : IndexSpaces} {index : UInt32} {entry : FuncEntry} {n locals : Nat} {V : Option Nbt}
  {below fs own : List Nbt} {size : Nat → Prop} {cs : List Command} {c : Command} {σ : State}
  {s s' : Store} {f : Function} {g : Modifier} {x : Nbt}

/-! ## Frames in states -/

/-- The frames under way, the innermost last. -/
def Open (fs : List Nbt) (σ : State) : Prop := σ.frames = some (entries fs)

/-- A frame on top of others, with a number of entries. -/
def Framed (below : List Nbt) (size : Nat → Prop) (σ : State) : Prop :=
  ∃ own : List Nbt, size own.length ∧ Open (below ++ [entries own]) σ

theorem Open.unique {gs : List Nbt} (h : Open fs σ) (h' : Open gs σ) : fs = gs :=
  entries_inj.1 (Option.some.inj (h.symm.trans h'))

theorem ignores_frames (p : Option Nbt → Prop) : Ignores .unframed (fun σ => p σ.frames) := by
  refine ⟨fun _ hσ _ => hσ, fun {σ τ id key} hσ hk h => ?_⟩
  have hframes : τ.frames = σ.frames := h.2 _ _ (.inr (Ne.symm (of_decide_eq_true hk)))
  rwa [hframes]

theorem ignores_open (fs : List Nbt) : Ignores .unframed (Open fs) :=
  ignores_frames (· = some (entries fs))

theorem ignores_framed (below : List Nbt) (size : Nat → Prop) :
    Ignores .unframed (Framed below size) :=
  ignores_frames fun v => ∃ own : List Nbt, size own.length ∧
    v = some (entries (below ++ [entries own]))

theorem aside_among_unframed : Writes.aside.Among .unframed := ⟨fun _ _ => rfl, fun _ hk => hk⟩

/-! ## What commands do to frames -/

/-- The locals that a command mentions are there; it mentions no frame but the innermost one,
    unless it opens another one; and it leaves every other frame as it is. -/
structure FrameSafe (ns : String) (c : Command) (σ : State) : Prop where
  locals : ∀ i, Path.local i ∈ c.paths → ∃ slot, σ.lookup ns (.local i) = some slot
  top : ∀ p ∈ c.paths, p.isWithin .frames = true →
    Path.frame.segments <+: p.segments ∨ (chain c).2 = some (.append .frames .emptyList)
  lower : ∀ {tags s names s' fs}, s.Models σ → Open fs σ → step tags ns c s = .ok names s' →
    Holds (fun τ => ∃ above, Open (fs.dropLast ++ above) τ) s'

/-- The command is one of an activation whose frame lies above others and has a number of
    entries, or of a function that is called from it. -/
structure Within (below : List Nbt) (size : Nat → Prop) (ns : String) (c : Command) (σ : State) :
    Prop extends FrameSafe ns c σ where
  own : ∃ own above, size own.length ∧ Open (below ++ entries own :: above) σ

theorem Within.of_framed (h : FrameSafe ns c σ) (hσ : Framed below size σ) :
    Within below size ns c σ := by
  obtain ⟨own, hsize, hopen⟩ := hσ
  exact ⟨h, own, [], hsize, hopen⟩

theorem Within.mono {size' : Nat → Prop} (h : Within below size ns c σ)
    (hsize : ∀ n, size n → size' n) : Within below size' ns c σ := by
  obtain ⟨own, above, hown, hopen⟩ := h.own
  exact ⟨h.toFrameSafe, own, above, hsize _ hown, hopen⟩

/-- What a callee is within, its caller is within. -/
theorem Within.caller {size' : Nat → Prop} (hown : size own.length)
    (h : Within (below ++ [entries own]) size' ns c σ) : Within below size ns c σ := by
  obtain ⟨inner, above, -, hopen⟩ := h.own
  rw [List.append_assoc] at hopen
  exact ⟨h.toFrameSafe, own, _, hown, hopen⟩

namespace FrameSafe

/-- What is below the innermost frame can be found where what is open is known. -/
theorem of_steps
    (hlocals : ∀ i, Path.local i ∈ c.paths → ∃ slot, σ.lookup ns (.local i) = some slot)
    (htop : ∀ p ∈ c.paths, p.isWithin .frames = true →
      Path.frame.segments <+: p.segments ∨ (chain c).2 = some (.append .frames .emptyList))
    (hσ : Open (below ++ [x]) σ) (h : ∀ {tags s names s'}, s.Models σ →
      step tags ns c s = .ok names s' → Holds (fun τ => ∃ above, Open (below ++ above) τ) s') :
    FrameSafe ns c σ where
  locals := hlocals
  top := htop
  lower hs hfs hstep := by
    obtain rfl := hfs.unique hσ
    rw [List.dropLast_concat]
    exact h hs hstep

/-- Commands that do not look at frames, whatever they call. -/
theorem of_staysIn {C : Calls} (hc : c.staysIn .unframed C = true) (hσ : Open (below ++ [x]) σ) :
    FrameSafe ns c σ := by
  refine .of_steps (fun i hi => ?_) (fun p hp hframes => ?_) hσ fun hs hstep => ?_
  · have hwithin := Command.paths_of_staysIn hc _ hi
    cases hwithin
  · have hwithin := Command.paths_of_staysIn hc _ hp
    unfold Path.isWithin at hwithin hframes
    split at hframes
    · rename_i hsegments
      rw [hsegments] at hwithin
      exact absurd (of_decide_eq_true hframes) (of_decide_eq_true hwithin)
    · cases hframes
  · exact (holds_within (Command.isWithin_of_staysIn hc) (ignores_open _) ⟨σ, hs, hσ⟩ hstep).mono
      fun τ hτ => ⟨[x], hτ⟩

theorem call {symbol : Symbol} (hσ : Open (below ++ [x]) σ) : FrameSafe ns (.call symbol) σ :=
  .of_staysIn (C := ⟨fun _ => true, fun _ => true⟩) rfl hσ

/-- A condition does not look at frames. -/
theorem guarded (hg : g.IsCondition) (hσ : Open (below ++ [x]) σ)
    (h : FrameSafe ns c σ) : FrameSafe ns (c.guarded g) σ := by
  have hpaths : ∀ p, p ∈ (c.guarded g).paths → p ∈ c.paths := by
    intro p hp
    refine (Command.mem_paths_guarded.1 hp).resolve_left fun hp => ?_
    cases g with
    | store kind target => exact hg kind target rfl
    | _ => cases hp
  refine ⟨fun i hi => h.locals i (hpaths _ hi), fun p hp hframes => ?_,
    fun hs hfs hstep => ?_⟩
  · rw [chain_guarded]
    exact h.top p (hpaths p hp) hframes
  · obtain ⟨-, hstep⟩ | ⟨-, -, rfl⟩ := step_guarded_cases hs hg hstep
    · exact h.lower hs hfs hstep
    · refine ⟨σ, hs, [x], ?_⟩
      obtain rfl := hfs.unique hσ
      rwa [List.dropLast_concat]

end FrameSafe

/-! ## Commands on frames -/

theorem conditions_setFrames (v : Nbt) :
    (σ.setCell sharedId "frames" v).conditions = σ.conditions := by
  rw [State.conditions, State.cells_setCell, if_neg (by decide)]
  rfl

theorem At.setFrames {I : State → Prop} {v : Nbt} (hσ : At V I σ)
    (hv : v = entries fs) : At V (Open fs) (σ.setCell sharedId "frames" v) :=
  ⟨by rw [Open, State.frames_setCell, hv], (conditions_setFrames v).trans hσ.2⟩

/-- A frame is opened. -/
theorem moves_open : Moves tags ns (.append .frames .emptyList) (At V (Open fs))
    (At V (Open (fs ++ [entries []]))) := by
  rintro s names s' ⟨σ, hs, hσ⟩ hstep
  have hpath : Path.frames.segments = .key "frames" :: [] := rfl
  obtain ⟨rfl, v, v', hv, happend, hs'⟩ := step_append_eq_ok hs hpath hstep
  refine ⟨rfl, _, hs', hσ.setFrames ?_⟩
  cases hv.symm.trans hσ.1
  have hpush : Nbt.append [] .emptyList (entries fs) = (some true, entries (fs ++ [entries []])) :=
    append_listOf (f := id) (x := entries [])
  exact (Prod.mk.inj (happend.symm.trans hpush)).2

/-- The command puts a value behind the last entry of the innermost frame. -/
inductive IsFill : Command → Prop where
  | value (v : Nbt) : IsFill (.append .frame v)
  | operand (i : Int32) : IsFill (.appendFrom .frame (.operand i))

theorem moves_fill (hc : IsFill c) : Moves tags ns c (At V (Open (below ++ [entries own])))
    (fun σ => ∃ v, At V (Open (below ++ [entries (own ++ [v])])) σ) := by
  rintro s names s' ⟨σ, hs, hσ⟩ hstep
  have hpath : Path.frame.segments = .key "frames" :: [.index (-1)] := rfl
  have hfill : ∀ {value v v'}, σ.cells sharedId "frames" = some v →
      Nbt.append [.index (-1)] value v = (some true, v') →
      v' = entries (below ++ [entries (own ++ [value])]) := by
    intro value v v' hv happend
    cases hv.symm.trans hσ.1
    exact (Prod.mk.inj (happend.symm.trans append_top)).2
  cases hc with
  | value v =>
    obtain ⟨rfl, v, v', hv, happend, hs'⟩ := step_append_eq_ok hs hpath hstep
    exact ⟨rfl, _, hs', _, hσ.setFrames (hfill hv happend)⟩
  | operand i =>
    have hoperand : Keyed (.operand i) := ⟨"stack", [.index i], rfl⟩
    obtain ⟨rfl, slot, v, v', -, hv, happend, hs'⟩ :=
      step_appendFrom_eq_ok hs hpath hoperand hstep
    exact ⟨rfl, _, hs', _, hσ.setFrames (hfill hv happend)⟩

/-- A local is set. -/
theorem moves_setLocal {i : UInt32} (hi : i.toNat < own.length) :
    Moves tags ns (.setFrom (.local i) top) (At V (Open (below ++ [entries own])))
      (fun σ => ∃ own' : List Nbt, own'.length = own.length ∧
        At V (Open (below ++ [entries own'])) σ) := by
  rintro s names s' ⟨σ, hs, hσ⟩ hstep
  have hpath : (Path.local i).segments = .key "frames" :: [.index (-1), .index i.toInt32] := rfl
  have htop : Keyed top := ⟨"stack", [.index (-1)], rfl⟩
  obtain ⟨rfl, slot, v, v', b, -, hv, hwrite, hs'⟩ :=
    step_setFrom_eq_ok hs hpath (List.cons_ne_nil _ _) htop hstep
  obtain ⟨j, hj⟩ := exists_position hi
  obtain ⟨b', hwritten⟩ := write_top below slot.toNbt hj
  cases hv.symm.trans hσ.1
  refine ⟨rfl, _, hs', own.set j slot.toNbt, List.length_set, hσ.setFrames ?_⟩
  exact (Prod.mk.inj (hwrite.symm.trans hwritten)).2

/-- The innermost frame is dropped. -/
theorem moves_close : Moves tags ns (.remove .frame) (At V (Open (fs ++ [x]))) (At V (Open fs)) := by
  rintro s names s' ⟨σ, hs, hσ⟩ hstep
  have hpath : Path.frame.segments = .key "frames" :: [.index (-1)] := rfl
  obtain ⟨rfl, v, v', hv, hremove, hs'⟩ := step_remove_eq_ok hs hpath (List.cons_ne_nil _ _) hstep
  cases hv.symm.trans hσ.1
  exact ⟨rfl, _, hs', hσ.setFrames (Prod.mk.inj (hremove.symm.trans remove_listOf_last)).2⟩

/-- A local of a function is there. -/
theorem exists_local {i : UInt32} (hi : i.toNat < own.length)
    (hσ : Open (below ++ [entries own]) σ) : ∃ slot, σ.lookup ns (.local i) = some slot := by
  obtain ⟨j, hj⟩ := exists_position hi
  show ∃ slot, (σ.frames).bind (fun v => v.lookup [.index (-1), .index i.toInt32]) = some slot
  rw [hσ]
  exact lookup_top hj

/-! ## Code -/

/-- Code keeps the innermost frame, and its size. -/
theorem discipline_frames (below : List Nbt) (size : Nat → Prop) (ns : String) :
    Discipline (Within below size) False ns (Framed below size)
      (fun _ _ => Framed below size) where
  ignores := (ignores_framed below size).mono aside_among_unframed
  ignores_pending _ _ := (ignores_framed below size).mono aside_among_unframed
  pending hσ := hσ
  mono _ hσ := hσ
  settled _ hσ := hσ
  resumed hσ _ := hσ
  cleared hσ := hσ
  passed hσ _ := hσ
  set_off hσ _ := hσ
  unframed hc hσ := by
    obtain ⟨own, -, hopen⟩ := id hσ
    exact .of_framed (.of_staysIn hc hopen) hσ
  fragment hσ := by
    obtain ⟨own, -, hopen⟩ := id hσ
    exact .of_framed (.call hopen) hσ
  guarded hg hok hs hσ _ := by
    obtain ⟨own, -, hopen⟩ := id hσ
    exact .of_framed (.guarded hg hopen (hok hs hσ).toFrameSafe) hσ
  fragmentIf hg hσ _ := by
    obtain ⟨own, -, hopen⟩ := id hσ
    exact .of_framed (.guarded hg hopen (.call hopen)) hσ

/-- Every function that is called with its arguments in a frame of their number leaves a frame in
    its place, and the conditions as they are. -/
def FramesKeep (code : Code) (declares : String → IndexSpaces → Prop) (n : Nat) : Prop :=
  ∀ {ns spaces index entry f}, declares ns spaces → spaces.funcAt index = .ok entry →
    code.function ((Symbol.func index).qualifiedName ns) = .ok f → ∀ below V,
      Triple code (Within below fun _ => True) n f.ns f.commands
        (At V (Framed below (· = entry.type.params.length))) (At V (Framed below fun _ => True))

/-! ## Activations -/

theorem local_ne {i : UInt32} {p : Path} (hp : p.isWithin .frames = false) : Path.local i ≠ p := by
  rintro rfl
  cases hp

namespace FrameSafe

theorem fill (hc : IsFill c) (hσ : Open (below ++ [entries own]) σ) : FrameSafe ns c σ := by
  refine .of_steps (fun i hi => ?_) (fun p hp hframes => .inl ?_) hσ fun hs hstep =>
    (moves_fill hc _ _ _ ⟨σ, hs, hσ, rfl⟩ hstep).2.mono fun τ ⟨v, hτ⟩ => ⟨_, hτ.1⟩
  · cases hc with
    | value v => cases List.mem_singleton.1 hi
    | operand j =>
      obtain hi | hi := List.mem_cons.1 hi
      · cases hi
      · exact absurd (List.mem_singleton.1 hi) (local_ne rfl)
  · cases hc with
    | value v =>
      obtain rfl := List.mem_singleton.1 hp
      exact List.prefix_refl _
    | operand j =>
      obtain rfl | hp := List.mem_cons.1 hp
      · exact List.prefix_refl _
      · rw [List.mem_singleton.1 hp] at hframes
        cases hframes

theorem push (hσ : Open (below ++ [x]) σ) : FrameSafe ns (.append .frames .emptyList) σ := by
  refine .of_steps (fun i hi => ?_) (fun _ _ _ => .inr rfl) hσ fun hs hstep =>
    (moves_open _ _ _ ⟨σ, hs, hσ, rfl⟩ hstep).2.mono fun τ hτ => ⟨[x, entries []], ?_⟩
  · cases List.mem_singleton.1 hi
  · simpa using hτ.1

theorem close (hσ : Open (below ++ [x]) σ) : FrameSafe ns (.remove .frame) σ := by
  refine .of_steps (fun i hi => ?_) (fun p hp _ => .inl ?_) hσ fun hs hstep =>
    (moves_close _ _ _ ⟨σ, hs, hσ, rfl⟩ hstep).2.mono fun τ hτ => ⟨[], ?_⟩
  · cases List.mem_singleton.1 hi
  · obtain rfl := List.mem_singleton.1 hp
    exact List.prefix_refl _
  · simpa using hτ.1

theorem prefix_local (i : UInt32) : Path.frame.segments <+: (Path.local i).segments :=
  ⟨[.index i.toInt32], rfl⟩

/-- A local is read. -/
theorem getLocal {i : UInt32} (hi : i.toNat < own.length) (hσ : Open (below ++ [entries own]) σ) :
    FrameSafe ns (.appendFrom .stack (.local i)) σ := by
  have hstack : (Command.appendFrom .stack (.local i)).isWithin .unframed = true := rfl
  refine .of_steps (fun j hj => ?_) (fun p hp hframes => .inl ?_) hσ fun hs hstep =>
    (holds_within hstack (ignores_open _) ⟨σ, hs, hσ⟩ hstep).mono fun τ hτ => ⟨_, hτ⟩
  · obtain hj | hj := List.mem_cons.1 hj
    · exact absurd hj (local_ne rfl)
    · rw [List.mem_singleton.1 hj]
      exact exists_local hi hσ
  · obtain rfl | hp := List.mem_cons.1 hp
    · cases hframes
    · rw [List.mem_singleton.1 hp]
      exact prefix_local i

/-- A local is set. -/
theorem setLocal {i : UInt32} (hi : i.toNat < own.length) (hσ : Open (below ++ [entries own]) σ) :
    FrameSafe ns (.setFrom (.local i) Compile.top) σ := by
  refine .of_steps (fun j hj => ?_) (fun p hp hframes => .inl ?_) hσ fun hs hstep =>
    (moves_setLocal hi _ _ _ ⟨σ, hs, hσ, rfl⟩ hstep).2.mono fun τ ⟨own', _, hτ⟩ => ⟨_, hτ.1⟩
  · obtain hj | hj := List.mem_cons.1 hj
    · rw [hj]
      exact exists_local hi hσ
    · exact absurd (List.mem_singleton.1 hj) (local_ne rfl)
  · obtain rfl | hp := List.mem_cons.1 hp
    · exact prefix_local i
    · rw [List.mem_singleton.1 hp] at hframes
      cases hframes

end FrameSafe

/-- Values are put into the innermost frame, one behind the other. -/
theorem triple_fill (hcs : ∀ c ∈ cs, IsFill c) (k : Nat) :
    Triple code (Within below fun _ => True) n ns cs (At V (Framed below (· = k)))
      (At V (Framed below (· = k + cs.length))) := by
  induction cs generalizing k with
  | nil => exact .nil fun _ hσ => hσ
  | cons c cs ih =>
    obtain ⟨hc, hcs⟩ := List.forall_mem_cons.1 hcs
    refine .cons (.moves (fun σ hσ => ?_) ?_) ((ih hcs (k + 1)).weaken (fun _ hσ => hσ) fun σ hσ => ?_)
    · obtain ⟨own, -, hopen⟩ := hσ.1
      exact .of_framed (.fill hc hopen) ⟨own, trivial, hopen⟩
    · rintro s names s' ⟨σ, hs, ⟨own, hlen, hopen⟩, hV⟩ hstep
      obtain ⟨hnames, hend⟩ := moves_fill hc s names s' ⟨σ, hs, hopen, hV⟩ hstep
      refine ⟨hnames, hend.mono fun τ ⟨v, hτ⟩ => ⟨⟨_, ?_, hτ.1⟩, hτ.2⟩⟩
      rw [List.length_append, hlen]
      rfl
    · rw [List.length_cons]
      rwa [Nat.add_right_comm, Nat.add_assoc] at hσ

theorem ignores_framed_at (below : List Nbt) (size : Nat → Prop) (V : Option Nbt) :
    Ignores .calm (At V (Framed below size)) :=
  ((ignores_framed below size).mono Writes.calm_among_unframed).and
    ((ignores_conditions V).mono calm_among_unconditional)

/-- The arguments of a call are moved into the frame that has been opened for them. -/
theorem triple_arguments (params : Nat) :
    Triple code (Within below fun _ => True) n ns
      ((List.range params).map (moveArgument params) ++ List.replicate params .dropOperand)
      (At V (Open (below ++ [entries []]))) (At V (Framed below (· = params))) := by
  refine .seq ((triple_fill (List.forall_mem_map.2 fun j _ => .operand _) 0).weaken
    (fun σ hσ => ⟨⟨[], rfl, hσ.1⟩, hσ.2⟩) fun σ hσ => ?_)
    (.keeps (ignores_framed_at below _ V) (all_replicate rfl) fun c hc σ hσ => ?_)
  · rwa [List.length_map, List.length_range, Nat.zero_add] at hσ
  · rw [List.eq_of_mem_replicate hc]
    obtain ⟨own, -, hopen⟩ := hσ.1
    exact .of_framed (.of_staysIn (C := .nothing) rfl hopen) ⟨own, trivial, hopen⟩

/-- The call of a function keeps the frame of the caller. -/
theorem triple_callFrames (hns : declares ns spaces) (hentry : spaces.funcAt index = .ok entry)
    (hcallee : ∀ m < n, FramesKeep code declares m) (below : List Nbt) (size : Nat → Prop)
    (V : Option Nbt) : Triple code (Within below size) n ns
      (callSequence (.func index) entry.type.params.length) (At V (Framed below size))
      (At V (Framed below size)) := by
  refine .of_forall fun σ ⟨⟨own, hown, hopen⟩, hV⟩ => ?_
  refine Triple.weaken (I := At V (Open (below ++ [entries own])))
    (J := At V (Open (below ++ [entries own]))) ?_ (fun τ hτ => hτ ▸ ⟨hopen, hV⟩)
    fun τ hτ => ⟨⟨own, hown, hτ.1⟩, hτ.2⟩
  -- While the frame of the callee is open, that of the caller is below it.
  have hcaller : ∀ {cs I J},
      Triple code (Within (below ++ [entries own]) fun _ => True) n ns cs I J →
        Triple code (Within below size) n ns cs I J := fun h => h.allow fun _ _ _ => .caller hown
  have hown' : ∀ {σ}, Open (below ++ [entries own]) σ → Framed below size σ :=
    fun hσ => ⟨own, hown, hσ⟩
  unfold callSequence
  rw [List.append_assoc [Command.append .frames .emptyList]]
  refine .seq (.seq (.moves (fun σ hσ => .of_framed (.push hσ.1) (hown' hσ.1)) moves_open)
    (hcaller (triple_arguments _))) (.cons (J := At V (Framed (below ++ [entries own]) fun _ => True))
      ?_ (.cons (J := At V (Open (below ++ [entries own]))) ?_ ?_))
  · cases n with
    | zero => exact fun _ _ => Along.zero
    | succ n =>
      refine hcaller (.call (fun σ hσ => ?_) fun f hf =>
        hcallee n (Nat.lt_succ_self n) hns hentry hf _ V)
      obtain ⟨inner, -, hopen⟩ := hσ.1
      exact .of_framed (.call hopen) ⟨inner, trivial, hopen⟩
  · refine .of_forall fun σ ⟨⟨inner, _, hopen⟩, hV⟩ => ?_
    refine Triple.weaken (I := At V (Open (below ++ [entries own] ++ [entries inner]))) ?_
      (fun τ hτ => hτ ▸ ⟨hopen, hV⟩) fun _ hτ => hτ
    refine hcaller (.moves (fun τ hτ => ?_) moves_close)
    exact .of_framed (.close hτ.1) ⟨inner, trivial, hτ.1⟩
  · exact .moves (fun σ hσ => .of_framed (.of_staysIn (C := .nothing) rfl hσ.1) (hown' hσ.1))
      (.setScore fun σ hσ => hσ)

theorem triple_exportFrames (hcallee : ∀ m < n, FramesKeep code declares m)
    (hf : IsExport declares f) (below : List Nbt) (size : Nat → Prop) (V : Option Nbt) :
    Triple code (Within below size) n f.ns f.commands (At V (Framed below size))
      (At V (Framed below size)) := by
  cases hf with
  | mk hns hentry => exact triple_callFrames hns hentry hcallee below size V

/-- The commands of an instruction without branches keep the frame. -/
theorem triple_straightFrames (hl : Linked code declares) (hns : declares ns spaces)
    (hcallee : ∀ m < n, FramesKeep code declares m) (hcs : IsStraight ⟨spaces, locals⟩ cs)
    (below : List Nbt) (V : Option Nbt) :
    Triple code (Within below (· = locals)) n ns cs (At V (Framed below (· = locals)))
      (At V (Framed below (· = locals))) := by
  cases hcs with
  | @call func entry hentry =>
    have hparams : (arityOf entry.type).params.toNat = entry.type.params.length :=
      UInt32.toNat_ofNat_of_lt' (hl.params hns hentry)
    rw [hparams]
    exact triple_callFrames hns hentry hcallee below _ V
  | steps h =>
    refine .all fun c hc => ?_
    cases h c hc with
    | basic hbasic =>
      refine hl.triple_beside (ignores_framed_at below _ V) (fun ns c σ hc hσ => ?_)
        (fun m hm f hf => triple_exportFrames (fun k hk => hcallee k (Nat.lt_of_lt_of_le hk hm))
          hf below _ V)
        (.calm (.inl ⟨spaces, hns⟩) (all_cons.2 ⟨Command.isCalm_of_isBasic hbasic, all_nil⟩))
      obtain ⟨own, -, hopen⟩ := id hσ.1
      exact .of_framed (.of_staysIn hc hopen) hσ.1
    | readLocal hi =>
      refine .moves (fun σ hσ => ?_) (.within rfl rfl (ignores_framed_at below _ V))
      obtain ⟨own, hlen, hopen⟩ := id hσ.1
      exact .of_framed (.getLocal (hlen.symm ▸ hi) hopen) hσ.1
    | writeLocal hi =>
      refine .moves (fun σ hσ => ?_) ?_
      · obtain ⟨own, hlen, hopen⟩ := id hσ.1
        exact .of_framed (.setLocal (hlen.symm ▸ hi) hopen) hσ.1
      · rintro s names s' ⟨σ, hs, ⟨own, hlen, hopen⟩, hV⟩ hstep
        obtain ⟨hnames, hend⟩ :=
          moves_setLocal (hlen.symm ▸ hi) s names s' ⟨σ, hs, hopen, hV⟩ hstep
        exact ⟨hnames, hend.mono fun τ ⟨own', hlen', hτ⟩ => ⟨⟨own', hlen'.trans hlen, hτ.1⟩, hτ.2⟩⟩

/-- The body of a function keeps the frame, once the locals are there. -/
theorem triple_bodyFrames (hl : Linked code declares) (hns : declares ns spaces)
    (hcallee : ∀ m < n, FramesKeep code declares m) {labels : List Label} {body : Expr}
    {pool pool' : Pool} {b : Block}
    (h : lowerList ⟨spaces, locals⟩ 0 labels 0 body pool = .ok (b, pool'))
    (hr : Resolved code ns pool pool') (below : List Nbt) (V : Option Nbt) :
    Triple code (Within below (· = locals)) n ns b.commands (At V (Framed below (· = locals)))
      (At V (Framed below (· = locals))) :=
  (discipline_frames below _ ns).emitted
    (emitted_lowerList _ _ _ _ _ h (Nat.zero_le _) (fun h => h.elim) hr)
    (fun _ hm _ V hcs => triple_straightFrames hl hns
      (fun k hk => hcallee k (Nat.lt_of_lt_of_le hk hm)) hcs below V) V

/-- Declared locals are put behind the parameters. -/
theorem triple_prologue (declared : List ValueType) (params : Nat) :
    Triple code (Within below fun _ => True) n ns
      (declared.map fun _ => .append .frame (.int 0)) (At V (Framed below (· = params)))
      (At V (Framed below (· = params + declared.length))) := by
  refine (triple_fill (List.forall_mem_map.2 fun _ _ => .value _) params).weaken (fun _ hσ => hσ)
    fun σ hσ => ?_
  rwa [List.length_map] at hσ

/-- Every function keeps what is below its frame, for any number of commands. -/
theorem framesKeep (hl : Linked code declares) (n : Nat) : FramesKeep code declares n := by
  induction n using Nat.strongRecOn with
  | _ n ih =>
    intro ns spaces index entry f hns hentry hf below V
    obtain ⟨entry', hentry', hbody⟩ | hexport := hl.function hns index f hf
    · obtain rfl := Except.ok.inj (hentry.symm.trans hentry')
      cases hbody with
      | mk h hr =>
        obtain ⟨b, hb, rfl⟩ := lowerFunction_eq_ok.1 h
        refine .seq (triple_prologue _ _) (((triple_bodyFrames hl hns ih hb hr below V).allow
          fun _ _ _ hσ => hσ.mono fun _ _ => trivial).weaken (fun _ hσ => hσ) fun σ hσ => ?_)
        exact hσ.mono fun τ ⟨own, _, hopen⟩ => ⟨own, trivial, hopen⟩
    · refine (triple_exportFrames ih hexport below (fun _ => True) V).weaken (fun σ hσ => ?_)
        fun _ hσ => hσ
      exact hσ.mono fun τ ⟨own, _, hopen⟩ => ⟨own, trivial, hopen⟩

/-- Values are put into the innermost frame, and what follows is reached. -/
theorem reaches_fill (code : Code) {rest : List Command} (values : List Nbt)
    (hs : Holds (At V (Open (below ++ [entries own]))) s) : ∃ s',
      Reaches code ⟨[⟨ns, values.map (fun v => .append .frame v) ++ rest⟩], s⟩ ⟨[⟨ns, rest⟩], s'⟩ ∧
      Holds (At V (Open (below ++ [entries (own ++ values)]))) s' := by
  induction values generalizing s own with
  | nil => exact ⟨s, .refl, by rwa [List.append_nil]⟩
  | cons v values ih =>
    obtain ⟨σ, hs, hσ⟩ := hs
    have hpath : Path.frame.segments = .key "frames" :: [.index (-1)] := rfl
    have hsteps : Steps code.tags ns (.append .frame v) σ [] _ :=
      .plain (.append _ _) (performs_append hpath hσ.1 append_top)
    obtain ⟨s₁, hstep, hs₁⟩ := hsteps s hs
    have hnext : Holds (At V (Open (below ++ [entries (own ++ [v])]))) s₁ :=
      ⟨_, hs₁, hσ.setFrames rfl⟩
    obtain ⟨s', hreach, hs'⟩ := ih hnext
    refine ⟨s', .head (.step hstep rfl) hreach, ?_⟩
    rwa [List.append_assoc] at hs'

end Machine

open Machine Compile Wasm Nbt

variable {parts : List Part} {ps : List Program} {p : Program} {ns : String} {m : Module}
  {spaces : IndexSpaces} {index : UInt32} {type : FuncType} {locals : List ValueType} {body : Expr}
  {t : Sequence} {below : List Nbt} {s : Store} {σ : State} {code : Code}

/-- **Functions respect frames.**  The sequence of a function of a module without imports, with the
    arguments in the innermost frame, first puts the declared locals behind them.  From there on the
    frame of the function has one entry for each parameter and local, so that every local is there.
    No command touches a frame below the innermost one, and where the function ends, what is below
    its frame is as before, and so are the conditions. -/
theorem frames_respected (h : SelfContained parts) (hps : Part.Give parts ps)
    (hcode : ps.foldl Code.addProgram {} = code) (hm : .module ns m ∈ parts)
    (hp : compileModule ns m = .ok p) (hspaces : IndexSpaces.ofModule m = .ok spaces)
    (hentry : spaces.funcAt index = .ok (.defined type locals body)) (ht : t ∈ p.sequences)
    (hsymbol : t.symbol = .func index) (hs : s.Models σ)
    (hσ : Framed below (· = type.params.length) σ) :
    ∃ rest mid, t.commands = locals.map (fun _ => .append .frame (.int 0)) ++ rest ∧
      mid.frames = [⟨ns, rest⟩] ∧ Reaches code ⟨[⟨ns, t.commands⟩], s⟩ mid ∧
      (∀ x, Reaches code ⟨[⟨ns, t.commands⟩], s⟩ x → Reaches code x mid ∨ Reaches code mid x) ∧
      Throughout code (Within below fun _ => True) ⟨[⟨ns, t.commands⟩], s⟩ ∧
      Throughout code (Within below (· = type.params.length + locals.length)) mid ∧
      ∀ {limit gas gas' s'}, run code limit gas [⟨ns, t.commands⟩] s = ⟨.ok (), gas', s'⟩ →
        Holds (At σ.conditions (Framed below (· = type.params.length + locals.length))) s' := by
  obtain ⟨c⟩ := exists_compiled hp
  obtain rfl : c.spaces = spaces := Except.ok.inj (c.spacesOk.symm.trans hspaces)
  subst hcode
  have hl := h.linked hps
  have hns : Part.Declares parts ns c.spaces := ⟨m, hm, hspaces⟩
  obtain ⟨entry, hentry', hbody⟩ := h.isBody hps hm c ht hsymbol
  obtain rfl := Except.ok.inj (hentry'.symm.trans hentry)
  generalize t.commands = commands at hbody
  cases hbody with
  | mk hlower hr =>
    obtain ⟨b, hb, rfl⟩ := lowerFunction_eq_ok.1 hlower
    have hbody : ∀ n, Triple _ _ n ns b.commands _ _ := fun n =>
      triple_bodyFrames hl hns (fun k _ => framesKeep hl k) hb hr below σ.conditions
    -- While the locals are filled in the frame has fewer entries, so that only the rest of the body
    -- is known to have all of them.
    have hall : ∀ n, Along _ (Within below fun _ => True) n [⟨ns, _⟩] _ s := fun n =>
      (triple_prologue locals type.params.length).seq
        ((hbody n).allow fun _ _ _ hc => hc.mono fun _ _ => trivial) s ⟨σ, hs, hσ, rfl⟩
    obtain ⟨args, hargs, hopen⟩ := hσ
    obtain ⟨s₁, hreach, hs₁⟩ := reaches_fill (ps.foldl Code.addProgram {})
      (locals.map fun _ => .int 0) ⟨σ, hs, hopen, rfl⟩
    rw [List.map_map] at hreach
    refine ⟨b.commands, ⟨[⟨ns, b.commands⟩], s₁⟩, rfl, rfl, hreach, fun x hx => hx.total hreach,
      fun _ _ _ _ _ hx => Along.allowed hall hx, fun _ _ _ _ _ hx => ?_, fun hrun => ?_⟩
    · refine Along.allowed (fun n => hbody n s₁ (hs₁.mono fun τ hτ => ⟨⟨_, ?_, hτ.1⟩, hτ.2⟩)) hx
      rw [List.length_append, List.length_map, hargs]
    · exact Along.ends hall (reaches_of_run hrun)

/-- A module of one function, which copies its parameter into a local. -/
def copyModule : Module where
  types := [⟨[.i32], []⟩]
  funcs := [⟨0, [.i32], [.localGet 0, .localSet 1]⟩]

/-- Where that function ends, its frame holds the parameter and the local. -/
theorem frames_respected_copy : ∃ p t, compileModule "demo" copyModule = .ok p ∧
    t ∈ p.sequences ∧ t.symbol = .func 0 ∧ ∃ s, Holds (Framed [] (· = 1)) s ∧
      ∀ limit gas gas' s', run (Code.addProgram {} p) limit gas [⟨"demo", t.commands⟩] s =
        ⟨.ok (), gas', s'⟩ → Holds (Framed [] (· = 2)) s' := by
  have hstore : ∃ s, Holds (Framed [] (· = 1)) s := by
    have hwrite : ∃ s, write "demo" .frames (entries [entries [.int 5]]) {} = .ok _ s ∧
        s.Models _ := Store.models_empty.write_top rfl
    obtain ⟨s, -, hs⟩ := hwrite
    exact ⟨s, _, hs, [.int 5], rfl, State.frames_setCell _ _⟩
  obtain ⟨s, σ, hs, hframed⟩ := hstore
  refine ⟨_, _, rfl, List.mem_cons_self, rfl, s, ⟨σ, hs, hframed⟩, fun limit gas gas' s' hrun => ?_⟩
  have hparts : SelfContained [.module "demo" copyModule] :=
    .single rfl (fun p hp => by cases hp; decide) (by decide)
  obtain ⟨rest, mid, -, -, -, -, -, -, hend⟩ := frames_respected hparts (.cons rfl .nil) rfl
    List.mem_cons_self rfl rfl rfl List.mem_cons_self rfl hs hframed
  exact (hend hrun).mono fun τ hτ => hτ.1

end WasmPack
