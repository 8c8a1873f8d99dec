/-
  WasmPack.Proofs.Operands.Functions

  Functions and the operands of their callers.  Whatever a function calls, and
  through however many modules, it reads and changes only operands above those that
  were there when it was entered.
-/
import WasmPack.Proofs.Calls.Chain
import WasmPack.Proofs.Operands.Bodies

namespace WasmPack

namespace Machine

open Compile Nbt Wasm

variable {code : Code} {declares : String → IndexSpaces → Prop} {ns : String}
  {spaces : IndexSpaces} {n : Nat} {below : List Nbt} {pool pool' : Pool} {cs : List Command}

/-! ## Functions -/

/-- The bodies of functions are faithful. -/
def BodiesFaithful (declares : String → IndexSpaces → Prop) : Prop :=
  ∀ {ns spaces index type locals body}, declares ns spaces →
    spaces.funcAt index = .ok (.defined type locals body) →
    Faithful ⟨spaces, type.params.length + locals.length⟩
      (start ⟨type.params.length + locals.length, type.results.length, body⟩)

/-- The code of a function leaves its results. -/
theorem triple_body (hw : Settled code declares) (hns : declares ns spaces)
    (hcallee : ∀ m < n, OperandsKeep code declares m) {type : FuncType}
    {declared : List ValueType} {body : Expr}
    (ht : Faithful ⟨spaces, type.params.length + declared.length⟩
      (start ⟨type.params.length + declared.length, type.results.length, body⟩))
    (h : lowerFunction spaces type declared body pool = .ok (cs, pool'))
    (hr : Resolved code ns pool pool') (below : List Nbt) (V : Option Nbt) :
    Triple code (StackSafe below) n ns cs (At V (Level below 0))
      (At V (Stacked below (arityOf type).results.toNat)) := by
  obtain ⟨b, hb, rfl⟩ := lowerFunction_eq_ok.1 h
  have hlocals : LiftsAll 0 (declared.map fun _ => Command.append .frame (.int 0)) 0 :=
    .apart (all_map fun _ _ => rfl)
  refine .seq (triple_level hw hns hlocals V) ?_
  refine (triple_lowerList hw hns hcallee 0 _ 0 _ body hb (Nat.zero_le _) rfl ht hr V).weaken
    (fun _ hσ => hσ) fun σ hσ => hσ.mono fun σ hσ => ?_
  have hleaves : Point.leaves (start ⟨type.params.length + declared.length, type.results.length,
      body⟩) = (arityOf type).results.toNat := Nat.zero_add _
  obtain hσ | ⟨u, l, -, hu, hl, -, hσ⟩ := hσ
  · exact hleaves ▸ hσ.1
  · obtain rfl := Nat.le_zero.1 hu
    cases hl
    have hfull : Label.full ⟨0, (arityOf type).results⟩ = (arityOf type).results.toNat :=
      Nat.zero_add _
    exact hfull ▸ hσ

/-- Arguments are put back onto the operand stack. -/
theorem liftsAll_locals (h : Nat) (js : List Nat) : LiftsAll h
    (js.map fun j => .appendFrom .stack (.local (UInt32.ofNat j))) (h + js.length) := by
  induction js generalizing h with
  | nil => exact .nil
  | cons j js ih =>
    have hrest := ih (h + 1)
    rw [Nat.add_assoc, Nat.add_comm 1] at hrest
    exact .cons (.pushFrom ⟨"frames", _, rfl⟩ rfl) hrest

/-- An imported function puts its arguments back for the function that it calls. -/
theorem triple_forward (hw : Settled code declares) (hns : declares ns spaces)
    (hcallee : ∀ m < n, OperandsKeep code declares m) {entry : FuncEntry} {f : Function}
    (hf : IsForward code declares ns entry f) (hcount : entry.type.params.length ≤ 2 ^ 31)
    (below : List Nbt) (V : Option Nbt) :
    Triple code (StackSafe below) n f.ns f.commands (At V (Level below 0))
      (At V (Stacked below (arityOf entry.type).results.toNat)) := by
  cases hf with
  | @mk type source h =>
    have hpush := liftsAll_locals 0 (List.range type.params.length)
    rw [List.length_range, Nat.zero_add] at hpush
    refine .seq (triple_level hw hns hpush V) ?_
    cases n with
    | zero => exact fun _ _ => Along.zero
    | succ n =>
      refine .call (fun σ hσ => .call hσ.1.1 _) fun g hg => ?_
      obtain ⟨spaces', index, entry', hns', hentry', hcounts, hcommands⟩ := h g hg
      have hparams : entry'.type.params.length = type.params.length :=
        congrArg Counts.params hcounts
      have hresults : (arityOf entry'.type).results = (arityOf type).results :=
        congrArg (fun counts : Counts => UInt32.ofNat counts.results) hcounts
      have hcall := triple_callOperands hw hns' hentry' (n := n)
        (fun m hm => hcallee m (Nat.lt_succ_of_lt hm)) (hw.params hns' hentry') below 0 V
      rw [Nat.zero_add, Nat.zero_add, hresults] at hcall
      rw [hcommands]
      exact hcall.weaken (fun _ hσ => hparams.symm ▸ hσ) fun _ hσ => hσ.mono fun _ hσ => hσ.1

/-- Every function leaves the operands of its callers alone, for any number of commands. -/
theorem operandsKeep (hw : Settled code declares) (hfaithful : BodiesFaithful declares) (n : Nat) :
    OperandsKeep code declares n := by
  induction n using Nat.strongRecOn with
  | _ n ih =>
    intro ns spaces index entry f hns hentry hf below V
    obtain ⟨entry', hentry', hbody | hforward⟩ := hw.function hns hf
    all_goals obtain rfl := Except.ok.inj (hentry.symm.trans hentry')
    · cases hbody with
      | mk h hr => exact triple_body hw hns ih (hfaithful hns hentry) h hr below V
    · exact triple_forward hw hns ih hforward (hw.params hns hentry) below V

end Machine

open Machine Compile Wasm Nbt

variable {parts : List Part} {ps : List Program} {p : Program} {ns : String} {m : Module}
  {spaces : IndexSpaces} {index : UInt32} {entry : FuncEntry} {t : Sequence} {below : List Nbt}
  {s : Store} {σ : State} {code : Code}

/-- **Functions respect operands.**  Where modules are loaded whose imports match and whose bodies
    are faithful, and a function of one of them is entered while no branch is under way, no command
    of it or of what it calls reads, removes or overwrites an operand that was there before.  Where
    the function ends, these are still there, with its results above them. -/
theorem operands_respected (h : Matching parts) (hps : Part.Give parts ps)
    (hcode : ps.foldl Code.addProgram {} = code) (hfaithful : BodiesFaithful (Part.Declares parts))
    (hm : .module ns m ∈ parts) (hp : compileModule ns m = .ok p)
    (hspaces : IndexSpaces.ofModule m = .ok spaces) (hentry : spaces.funcAt index = .ok entry)
    (ht : t ∈ p.sequences) (hsymbol : t.symbol = .func index) (hs : s.Models σ) (hidle : Idle σ)
    (hstack : σ.operands = some (entries below)) :
    Throughout code (StackSafe below) ⟨[⟨ns, t.commands⟩], s⟩ ∧
      ∀ {limit gas gas' s'}, run code limit gas [⟨ns, t.commands⟩] s = ⟨.ok (), gas', s'⟩ →
        Holds (Stacked below (arityOf entry.type).results.toNat) s' := by
  obtain ⟨c⟩ := exists_compiled hp
  obtain rfl : c.spaces = spaces := Except.ok.inj (c.spacesOk.symm.trans hspaces)
  subst hcode
  have hns : Part.Declares parts ns c.spaces := ⟨m, hm, hspaces⟩
  have hw := h.settled hps
  have hcallee : ∀ k, OperandsKeep _ _ k := operandsKeep hw hfaithful
  have hentered : Holds (At σ.conditions (Level below 0)) s :=
    ⟨σ, hs, ⟨⟨[], Nat.le_refl _, by rw [hstack, List.append_nil]⟩, hidle⟩, rfl⟩
  have hall : ∀ n, Along (ps.foldl Code.addProgram {}) (StackSafe below) n [⟨ns, t.commands⟩]
      (At σ.conditions (Stacked below (arityOf entry.type).results.toNat)) s := by
    intro n
    -- A function of the module has a body, one that is imported is passed on.
    obtain ⟨entry', hentry', hbody | hforward⟩ := h.isBody_or_isForward hps hm c ht hsymbol
    all_goals obtain rfl := Except.ok.inj (hentry.symm.trans hentry')
    · generalize t.commands = commands at hbody
      cases hbody with
      | mk hlower hr =>
        exact triple_body hw hns (fun k _ => hcallee k) (hfaithful hns hentry) hlower hr below _ s
          hentered
    · exact triple_forward hw hns (fun k _ => hcallee k) hforward (hw.params hns hentry) below _ s
        hentered
  exact ⟨fun _ _ _ _ _ hx => Along.allowed hall hx, fun hrun =>
    (Along.ends hall (reaches_of_run hrun)).mono fun τ hτ => hτ.1⟩

/-- There is a store with given operands and frames, where no branch is under way. -/
theorem exists_idle (xs fs : List Nbt) : ∃ (s : Store) (σ : State), s.Models σ ∧ Idle σ ∧
    σ.operands = some (entries xs) ∧ σ.frames = some (entries fs) := by
  have hframes : ∃ s, write "" .frames (entries fs) {} = .ok _ s ∧ s.Models _ :=
    Store.models_empty.write_top rfl
  obtain ⟨s₁, -, hs₁⟩ := hframes
  have hstack : ∃ s, write "" .stack (entries xs) s₁ = .ok _ s ∧ s.Models _ := hs₁.write_top rfl
  obtain ⟨s₂, -, hs₂⟩ := hstack
  exact ⟨_, ((State.setFrames ⟨fun _ => none, fun _ _ => none⟩ fs).setOperands xs).setReg .brDepth
    noBranch, hs₂.setReg .brDepth noBranch, by simp [Idle], by simp, by simp⟩

/-- A module with a function that calls one of another module, and drops what it gives. -/
def borrowingModule : Module where
  types := [⟨[.i32], [.i32]⟩, ⟨[], []⟩]
  imports := [⟨"alpha", "f", .func 0⟩]
  funcs := [⟨1, [], [.i32Const 3, .call 0, .drop]⟩]

/-- An operand of the caller is safe from that function, and from what it calls. -/
theorem operands_respected_borrowing : ∃ p q, compileModule "alpha" definingModule = .ok p ∧
    compileModule "beta" borrowingModule = .ok q ∧ ∃ t ∈ q.sequences, t.symbol = .func 1 ∧
      ∃ s, Holds (fun σ => Idle σ ∧ σ.operands = some (entries [.int 7])) s ∧
        Throughout ((Code.addProgram {} p).addProgram q) (StackSafe [.int 7])
          ⟨[⟨"beta", t.commands⟩], s⟩ := by
  obtain ⟨s, σ, hs, hidle, hstack, -⟩ := exists_idle [.int 7] [entries []]
  let parts : List Part := [.module "alpha" definingModule, .module "beta" borrowingModule]
  have hmem : ∀ {ns m}, .module ns m ∈ parts →
      ns = "alpha" ∧ m = definingModule ∨ ns = "beta" ∧ m = borrowingModule := by
    intro ns m hm
    simpa [parts] using hm
  have hfunc : ∀ {ns spaces index entry}, Part.Declares parts ns spaces →
      spaces.funcAt index = .ok entry → entry = .defined ⟨[.i32], [.i32]⟩ [] [.localGet 0] ∨
        entry = .imported ⟨[.i32], [.i32]⟩ ⟨"alpha", "f"⟩ ∨
          entry = .defined ⟨[], []⟩ [] [.i32Const 3, .call 0, .drop] := by
    rintro ns spaces index entry ⟨m, hm, hspaces⟩ hentry
    have hin := Array.mem_of_getElem? (entryAt_eq_ok.1 hentry)
    obtain ⟨rfl, rfl⟩ | ⟨rfl, rfl⟩ := hmem hm <;> cases hspaces
    · exact .inl (Array.mem_singleton.1 hin)
    · exact .inr (List.mem_pair.1 (Array.mem_def.1 hin))
  have hparts : Matching parts := by
    refine ⟨.pair (by decide), fun ns m p hm hp => ?_, fun ns m hm => ?_, fun ns m hm => ?_,
      fun hns hentry => ?_, fun hns hentry m spaces e entry hm hspaces he _ _ hexport => ?_⟩
    · obtain ⟨rfl, rfl⟩ | ⟨rfl, rfl⟩ := hmem hm <;> cases hp <;> decide
    · obtain ⟨rfl, rfl⟩ | ⟨rfl, rfl⟩ := hmem hm <;> decide
    · obtain ⟨rfl, rfl⟩ | ⟨rfl, rfl⟩ := hmem hm <;> decide
    · obtain h | h | h := hfunc hns hentry <;> cases h
      decide
    · obtain h | h | h := hfunc hns hentry <;> cases h
      obtain ⟨-, rfl⟩ | ⟨h, -⟩ := hmem hm
      · obtain rfl := List.mem_singleton.1 he
        cases hspaces
        cases hexport
        rfl
      · exact absurd h (by decide)
  have hfaithful : BodiesFaithful (Part.Declares parts) := by
    intro ns spaces index type locals body hns hentry
    have hfits : ∀ {arity : UInt32}, arity.toNat < 2 ^ 31 →
        ∀ l ∈ [(⟨0, arity⟩ : Label)], l.Fits := by
      rintro arity harity _ hl
      cases List.mem_singleton.1 hl
      exact ⟨Nat.two_pow_pos 31, harity⟩
    obtain h | h | h := hfunc hns hentry <;> cases h
    · refine .straight rfl (hfits (by decide)) fun h => ?_
      cases h
      exact .nil (hfits (by decide)) (Nat.le_refl _)
    · refine .straight rfl (hfits (by decide)) fun h => ?_
      cases h
      refine .straight rfl (hfits (by decide)) fun {_ next} h => ?_
      obtain ⟨callee, base, hcallee, hbase, hnext, -⟩ := lowerStraight_call h
      -- Whichever function it is, one operand is there behind the call.
      obtain rfl : next = 1 := by
        obtain h | h | h := hfunc hns hcallee <;> cases h <;> cases hbase <;> cases hnext <;> rfl
      refine .straight rfl (hfits (by decide)) fun h => ?_
      cases h
      exact .nil (hfits (by decide)) (Nat.le_refl _)
  obtain ⟨hall, -⟩ := operands_respected hparts (.cons rfl (.cons rfl .nil)) rfl hfaithful
    (List.mem_cons_of_mem _ List.mem_cons_self) rfl rfl rfl
    (List.mem_cons_of_mem _ List.mem_cons_self) rfl hs hidle hstack
  exact ⟨_, _, rfl, rfl, _, List.mem_cons_of_mem _ List.mem_cons_self, rfl, s,
    ⟨σ, hs, hidle, hstack⟩, hall⟩

/-- A module with a function that is to give a value and aborts instead, and one that drops what it
    gives. -/
def abortingModule : Module where
  types := [⟨[], []⟩, ⟨[], [.i32]⟩]
  funcs := [⟨0, [], [.call 1, .drop]⟩, ⟨1, [], [.unreachable]⟩]

/-- That function takes an operand of its caller instead. -/
theorem operands_taken_aborting : ∃ p t, compileModule "demo" abortingModule = .ok p ∧
    t ∈ p.sequences ∧ t.symbol = .func 0 ∧ ∃ s s',
      Holds (fun σ => Idle σ ∧ σ.operands = some (entries [.int 7]) ∧
        σ.frames = some (entries [entries []])) s ∧
      Reaches (Code.addProgram {} p) ⟨[⟨"demo", t.commands⟩], s⟩ ⟨[⟨"demo", [.dropOperand]⟩], s'⟩ ∧
      ¬Holds (StackSafe [.int 7] "demo" .dropOperand) s' ∧
      ∃ s'', Reaches (Code.addProgram {} p) ⟨[⟨"demo", t.commands⟩], s⟩ ⟨[], s''⟩ ∧
        Holds (fun σ => σ.operands = some (entries [])) s'' := by
  have hpresent : Present [.module "demo" abortingModule] "demo" abortingModule _ :=
    ⟨List.mem_cons_self, rfl, ⟨by decide, by decide⟩, fun p hp => by cases hp; decide⟩
  have hapart : Part.Apart [.module "demo" abortingModule] := by
    intro ns m m' hm hm'
    cases List.mem_singleton.1 hm
    cases List.mem_singleton.1 hm'
    rfl
  obtain ⟨p, hp⟩ : ∃ p, compileModule "demo" abortingModule = .ok p := ⟨_, rfl⟩
  have hps : Part.Give [.module "demo" abortingModule] [p] := .cons hp .nil
  obtain ⟨_, t, _, _, hp', ht, hsymbol, hcommands, -⟩ := hpresent.exists_code hapart hps
    (show IndexSpaces.funcAt _ 0 = .ok _ from rfl)
  obtain rfl := Except.ok.inj (hp.symm.trans hp')
  have hcaller : callSequence (.func 1) 0 ++ [.dropOperand] = t.commands :=
    (Prod.mk.inj (Except.ok.inj hcommands)).1
  obtain ⟨_, abort, _, _, -, -, -, habort, hfound⟩ := hpresent.exists_code hapart hps
    (show IndexSpaces.funcAt _ 1 = .ok _ from rfl)
  obtain ⟨hcallee, -⟩ := Prod.mk.inj (Except.ok.inj habort)
  rw [← hcallee] at hfound
  -- The host has left a value on the stack, and the body of the caller begins above it.
  obtain ⟨s, σ, hs, hidle, hstack, hframes⟩ := exists_idle ([] ++ [.int 7]) [entries []]
  have hcalled : ((σ.setFrames ([entries []] ++ [entries []])).setReg .brDepth 0).frames =
      some (entries ([entries []] ++ [entries []])) := by simp
  have hto : ∃ σ', Leads (Code.addProgram {} p)
      [⟨"demo", callSequence (.func 1) 0 ++ [.dropOperand]⟩] σ [⟨"demo", [.dropOperand]⟩] σ' ∧
        σ'.operands = some (entries ([] ++ [.int 7])) :=
    ⟨_, .plain (steps_openFrame hframes) <| .trans (.call hfound) <|
      .plain steps_setScore <| .trans .leave <|
      .plain (steps_closeFrame hcalled) <| .plain steps_setScore .refl,
      by simpa using hstack⟩
  obtain ⟨σ', hto, hstack'⟩ := hto
  rw [hcaller] at hto
  obtain ⟨s', hreach, hs'⟩ := hto s hs
  -- The callee has aborted without a result, so the drop behind the call takes the host's value.
  have hdrop : Leads (Code.addProgram {} p) [⟨"demo", [.dropOperand]⟩] σ' [] (σ'.setOperands []) :=
    .plain (steps_dropOperand hstack') .leave
  obtain ⟨s'', hend, hs''⟩ := hdrop s' hs'
  refine ⟨p, t, hp, ht, hsymbol, s, s', ⟨σ, hs, hidle, hstack, hframes⟩, hreach, ?_, s'',
    hreach.trans hend, _, hs'', State.operands_setOperands _ _⟩
  rintro ⟨τ, hτ, hsafe⟩
  obtain rfl := hs'.unique hτ
  obtain ⟨hpath, -⟩ | ⟨i, own, j, hpath, hown, hj⟩ :=
    hsafe.above (fun g hg => nomatch hg) top (List.mem_singleton.2 rfl) rfl
  · cases hpath
  · cases hpath
    have hlist := entries_inj.1 (Option.some.inj (hstack'.symm.trans hown))
    rw [← hlist] at hj
    have hlast : 0 = 1 + j := Option.some.inj ((position?_top []).symm.trans hj)
    omega

end WasmPack
