/-
  WasmPack.Proofs.Calls.Leads

  From point to point of a run.

  A run leads from some functions under way in one state to others in another
  state.  The lemmas follow the commands of the calling conventions: frames are
  opened and closed, arguments go from the operand stack into a frame and back.
-/
import Mathlib.Data.List.Induction
import WasmPack.Proofs.Execution.Frames

namespace WasmPack.Machine

open Compile Nbt

variable {code : Code} {tags : TagTable} {ns name : String} {c : Command}
  {cs rest : List Command} {f : Function} {fs gs hs outer : List Function} {σ σ₁ σ' : State}
  {s s' : Store} {xs low args own : List Nbt} {frames : List Nbt} {x v : Nbt} {i j k n : Nat}

/-! ## From point to point -/

/-- From every store in one state, a run comes from some functions under way to others, in a store
    in another state. -/
def Leads (code : Code) (fs : List Function) (σ : State) (gs : List Function) (σ' : State) : Prop :=
  ∀ s, s.Models σ → ∃ s', Reaches code ⟨fs, s⟩ ⟨gs, s'⟩ ∧ s'.Models σ'

namespace Leads

theorem refl : Leads code fs σ fs σ := fun s hs => ⟨s, .refl, hs⟩

theorem trans (h : Leads code fs σ gs σ₁) (h' : Leads code gs σ₁ hs σ') :
    Leads code fs σ hs σ' := by
  intro s hs
  obtain ⟨s₁, hreach, hs₁⟩ := h s hs
  obtain ⟨s', hreach', hs'⟩ := h' s₁ hs₁
  exact ⟨s', hreach.trans hreach', hs'⟩

/-- A command that calls nothing. -/
theorem plain (h : Steps code.tags ns c σ [] σ₁)
    (h' : Leads code (⟨ns, rest⟩ :: outer) σ₁ gs σ') :
    Leads code (⟨ns, c :: rest⟩ :: outer) σ gs σ' := by
  intro s hs
  obtain ⟨s₁, hstep, hs₁⟩ := h s hs
  obtain ⟨s', hreach, hs'⟩ := h' s₁ hs₁
  exact ⟨s', .head (.step hstep rfl) hreach, hs'⟩

/-- A call enters the function that is found under the name. -/
theorem call {symbol : Symbol} (hf : code.function (symbol.qualifiedName ns) = .ok f) :
    Leads code (⟨ns, .call symbol :: rest⟩ :: outer) σ (f :: ⟨ns, rest⟩ :: outer) σ := by
  intro s hs
  have hcall : Steps code.tags ns (.call symbol) σ [symbol.qualifiedName ns] σ := .call
  obtain ⟨s', hstep, hs'⟩ := hcall s hs
  have hentered : code.functionsOf [symbol.qualifiedName ns] = .ok [f] := by
    simp only [Code.functionsOf, hf]
    rfl
  exact ⟨s', .head (.step hstep hentered) .refl, hs'⟩

/-- A function at its end is left. -/
theorem leave : Leads code (⟨ns, []⟩ :: outer) σ outer σ := fun s hs =>
  ⟨s, .head .leave .refl, hs⟩

end Leads

/-- Commands that call nothing, one behind the other. -/
inductive Line (tags : TagTable) (ns : String) : List Command → State → State → Prop where
  | nil {σ : State} : Line tags ns [] σ σ
  | cons {c : Command} {cs : List Command} {σ σ₁ σ' : State} (h : Steps tags ns c σ [] σ₁)
      (h' : Line tags ns cs σ₁ σ') : Line tags ns (c :: cs) σ σ'

namespace Line

theorem append {ds : List Command} (h : Line tags ns cs σ σ₁) (h' : Line tags ns ds σ₁ σ') :
    Line tags ns (cs ++ ds) σ σ' := by
  induction h with
  | nil => exact h'
  | cons hs _ ih => exact .cons hs (ih h')

theorem leads (h : Line code.tags ns cs σ σ') :
    Leads code (⟨ns, cs ++ rest⟩ :: outer) σ (⟨ns, rest⟩ :: outer) σ' := by
  induction h with
  | nil => exact .refl
  | cons hs _ ih => exact .plain hs ih

end Line

/-- A run that comes to an end is a run without a fault, if the limit allows for it. -/
theorem run_of_reaches (h : Reaches code ⟨fs, s⟩ ⟨[], s'⟩) : ∃ n, ∀ limit gas, gas + n ≤ limit →
    run code limit gas fs s = ⟨.ok (), gas + n, s'⟩ := by
  generalize hx : (⟨fs, s⟩ : Config) = x at h
  induction h using Relation.ReflTransGen.head_induction_on generalizing fs s with
  | refl =>
    cases hx
    refine ⟨0, fun limit gas _ => ?_⟩
    rw [run]
    rfl
  | head hnext _ ih =>
    subst hx
    cases hnext with
    -- Leaving a frame costs nothing, a command costs one.
    | leave =>
      obtain ⟨n, hn⟩ := ih rfl
      refine ⟨n, fun limit gas hle => ?_⟩
      rw [run]
      exact hn limit gas hle
    | step hs hf =>
      obtain ⟨n, hn⟩ := ih rfl
      refine ⟨n + 1, fun limit gas hle => ?_⟩
      rw [run, if_neg (by omega), hs]
      simp only [hf]
      rw [hn limit (gas + 1) (by omega)]
      congr 1
      omega

/-! ## The operand stack and the frames -/

namespace State

/-- Put operands onto the operand stack in place of those that are there. -/
def setOperands (σ : State) (xs : List Nbt) : State := σ.setCell sharedId "stack" (entries xs)

/-- Put frames in place of those under way. -/
def setFrames (σ : State) (fs : List Nbt) : State := σ.setCell sharedId "frames" (entries fs)

variable (σ) (xs ys : List Nbt) (r : Register) (m : Int32)

@[simp] theorem operands_setOperands : (σ.setOperands xs).operands = some (entries xs) := by
  simp [operands, setOperands]

@[simp] theorem frames_setFrames : (σ.setFrames xs).frames = some (entries xs) :=
  frames_setCell σ (entries xs)

@[simp] theorem operands_setFrames : (σ.setFrames xs).operands = σ.operands := by
  simp [operands, setFrames]

@[simp] theorem frames_setOperands : (σ.setOperands xs).frames = σ.frames := by
  simp [frames, setOperands]

@[simp] theorem setOperands_setOperands :
    (σ.setOperands xs).setOperands ys = σ.setOperands ys := setCell_setCell ..

@[simp] theorem setFrames_setFrames : (σ.setFrames xs).setFrames ys = σ.setFrames ys :=
  setCell_setCell ..

/-- Operands and frames lie apart. -/
theorem setOperands_setFrames :
    (σ.setOperands xs).setFrames ys = (σ.setFrames ys).setOperands xs := by
  ext i k
  · rfl
  · simp only [setOperands, setFrames, cells_setCell]
    by_cases h : i = sharedId ∧ k = "frames"
    · obtain ⟨rfl, rfl⟩ := h
      simp
    · simp [h]

theorem setFrames_setReg : (σ.setReg r m).setFrames xs = (σ.setFrames xs).setReg r m := rfl

@[simp] theorem operands_setReg : (σ.setReg r m).operands = σ.operands := rfl

@[simp] theorem frames_setReg : (σ.setReg r m).frames = σ.frames := rfl

@[simp] theorem regs_setOperands : (σ.setOperands xs).regs = σ.regs := rfl

@[simp] theorem regs_setFrames : (σ.setFrames xs).regs = σ.regs := rfl

variable {σ xs}

theorem setOperands_eq_self (h : σ.operands = some (entries xs)) : σ.setOperands xs = σ :=
  setCell_eq_self h

theorem setFrames_eq_self (h : σ.frames = some (entries xs)) : σ.setFrames xs = σ :=
  setCell_eq_self h

/-- An operand is found at its place. -/
theorem lookup_operand {i : Int32} (h : σ.operands = some (entries xs))
    (hp : position? i xs.length = some j) (hv : xs[j]? = some v) :
    σ.lookup ns (.operand i) = some (.stored v) := by
  show (σ.cells sharedId "stack").bind (fun w => w.lookup [.index i]) = _
  have hstack : σ.cells sharedId "stack" = some (entries xs) := h
  rw [hstack]
  exact lookup_listOf (f := id) hp hv

/-- A local is found at its place in the innermost frame. -/
theorem lookup_local {i : UInt32} (h : σ.frames = some (entries (frames ++ [entries own])))
    (hp : position? i.toInt32 own.length = some j) (hv : own[j]? = some v) :
    σ.lookup ns (.local i) = some (.stored v) := by
  show (σ.cells sharedId "frames").bind
    (fun w => w.lookup [.index (-1), .index i.toInt32]) = _
  have hframes : σ.cells sharedId "frames" = some (entries (frames ++ [entries own])) := h
  rw [hframes]
  have hin : (entries own).lookup [.index i.toInt32] = some (.stored v) :=
    lookup_listOf (f := id) hp hv
  exact (lookup_listOf (position?_top frames) getElem?_top).trans hin

end State

/-! ## Commands of the conventions -/

/-- A frame is opened. -/
theorem steps_openFrame (h : σ.frames = some (entries frames)) :
    Steps tags ns (.append .frames .emptyList) σ [] (σ.setFrames (frames ++ [entries []])) := by
  have happend : Nbt.append [] .emptyList (entries frames) =
      (some true, entries (frames ++ [entries []])) := append_listOf (f := id) (x := .emptyList)
  exact .plain (.append _ _) (performs_append (k := "frames") rfl h happend)

/-- A frame is closed. -/
theorem steps_closeFrame (h : σ.frames = some (entries (frames ++ [x]))) :
    Steps tags ns (.remove .frame) σ [] (σ.setFrames frames) := by
  have hremove : Nbt.remove [.index (-1)] (entries (frames ++ [x])) =
      (some (), entries frames) := remove_listOf_last (f := id)
  exact .plain (.remove _) (performs_remove (k := "frames") rfl (List.cons_ne_nil _ _) h hremove)

/-- An operand is copied into the innermost frame. -/
theorem steps_moveArgument (hstack : σ.operands = some (entries xs))
    (h : σ.frames = some (entries (frames ++ [entries own])))
    (hp : position? (Int32.ofInt (i - n)) xs.length = some j) (hv : xs[j]? = some v) :
    Steps tags ns (moveArgument n i) σ [] (σ.setFrames (frames ++ [entries (own ++ [v])])) := by
  have happend : Does σ (perform ns (.append .frame v)) (.done 1) _ :=
    performs_append (k := "frames") rfl h append_top
  exact .plain (.appendFrom _ _) (performs_appendFrom ⟨"stack", _, rfl⟩
    (State.lookup_operand hstack hp hv) happend)

/-- The topmost operand is dropped. -/
theorem steps_dropOperand (h : σ.operands = some (entries (xs ++ [x]))) :
    Steps tags ns .dropOperand σ [] (σ.setOperands xs) := by
  have hremove : Nbt.remove [.index (-1)] (entries (xs ++ [x])) = (some (), entries xs) :=
    remove_listOf_last (f := id)
  exact .plain (.remove _) (performs_remove (k := "stack") rfl (List.cons_ne_nil _ _) h hremove)

/-- The topmost operand is loaded into a register. -/
theorem steps_loadTop {r : Register} {m : Int32} (h : σ.operands = some (entries (xs ++ [.int m]))) :
    Steps tags ns (.load r top) σ [] (σ.setReg r m) :=
  .stored (.getData _) (performs_getData ⟨"stack", _, rfl⟩
    (State.lookup_operand h (position?_top xs) getElem?_top)) stores_score

/-- A register is saved in place of the topmost operand. -/
theorem steps_saveTop {r : Register} {m : Int32} (h : σ.operands = some (entries (xs ++ [x])))
    (hr : σ.regs r = some m) :
    Steps tags ns (.save top r) σ [] (σ.setOperands (xs ++ [.int m])) := by
  obtain ⟨b, hwrite⟩ := write_listOf (f := id) (y := .int m) (position?_top xs (x := x))
  rw [set_top] at hwrite
  exact .stored (.getScore r) (performs_getScore hr)
    (stores_storage (k := "stack") rfl (List.cons_ne_nil _ _) h hwrite)

/-- A value is pushed onto the operand stack. -/
theorem performs_push (h : σ.operands = some (entries xs)) (v : Nbt) :
    Does σ (perform ns (.append .stack v)) (.done 1) (σ.setOperands (xs ++ [v])) :=
  performs_append (k := "stack") rfl h (append_listOf (f := id) (x := v))

/-- A local is copied onto the operand stack. -/
theorem steps_pushLocal {i : UInt32} (hstack : σ.operands = some (entries xs))
    (h : σ.frames = some (entries (frames ++ [entries own])))
    (hp : position? i.toInt32 own.length = some j) (hv : own[j]? = some v) :
    Steps tags ns (.appendFrom .stack (.local i)) σ [] (σ.setOperands (xs ++ [v])) :=
  .plain (.appendFrom _ _) (performs_appendFrom ⟨"frames", _, rfl⟩
    (State.lookup_local h hp hv) (performs_push hstack v))

/-! ## The conventions -/

/-- An argument lies where it is counted from the top of the operand stack. -/
theorem position?_argument (hi : i < n) (hn : n ≤ 2 ^ 31) (hargs : args.length = n) :
    position? (Int32.ofInt (i - n)) (low ++ args).length = some (low.length + i) := by
  have hneg : (Int32.ofInt ((i : Int) - n)).toInt = -(((n - i - 1 : Nat) : Int) + 1) := by
    rw [Int32.toInt_ofInt_of_le (by omega) (by omega)]
    omega
  rw [List.length_append, hargs, position?_of_neg hneg (by omega)]
  congr 1
  omega

/-- The arguments behind the first `k` of them are moved into the innermost frame. -/
theorem line_moveArguments (hstack : σ.operands = some (entries (low ++ args)))
    (hargs : args.length = n) (hn : n ≤ 2 ^ 31) (m : Nat) (hm : k + m = n)
    (h : σ.frames = some (entries (frames ++ [entries (args.take k)]))) :
    Line tags ns ((List.range' k m).map (moveArgument n)) σ
      (σ.setFrames (frames ++ [entries args])) := by
  induction m generalizing σ k with
  | zero =>
    rw [Nat.add_zero] at hm
    rw [List.take_of_length_le (by omega)] at h
    rw [State.setFrames_eq_self h]
    exact .nil
  | succ m ih =>
    have hk : k < args.length := by omega
    have hget : (low ++ args)[low.length + k]? = some args[k] := by
      rw [List.getElem?_append_right (by omega), Nat.add_sub_cancel_left,
        List.getElem?_eq_getElem hk]
    have hstep : Steps tags ns (moveArgument n k) σ [] _ :=
      steps_moveArgument hstack h (position?_argument (by omega) hn hargs) hget
    rw [List.take_append_getElem hk] at hstep
    refine .cons hstep ?_
    have hnext := @ih (σ.setFrames (frames ++ [entries (args.take (k + 1))])) (k + 1)
      (by rwa [State.operands_setFrames]) (by omega) (State.frames_setFrames _ _)
    rwa [State.setFrames_setFrames] at hnext

/-- The arguments are dropped from the operand stack. -/
theorem line_dropArguments (hstack : σ.operands = some (entries (low ++ args))) :
    Line tags ns (List.replicate args.length .dropOperand) σ (σ.setOperands low) := by
  induction args using List.reverseRecOn generalizing σ with
  | nil =>
    rw [List.append_nil] at hstack
    rw [State.setOperands_eq_self hstack]
    exact .nil
  | append_singleton args x ih =>
    rw [← List.append_assoc] at hstack
    rw [List.length_append, List.length_singleton, List.replicate_succ]
    refine .cons (steps_dropOperand hstack) ?_
    have hnext := @ih (σ.setOperands (low ++ args)) (State.operands_setOperands _ _)
    rwa [State.setOperands_setOperands] at hnext

/-- What stands in front of the call itself. -/
def callFront (params : Nat) : List Command :=
  [.append .frames .emptyList] ++ (List.range params).map (moveArgument params) ++
    List.replicate params .dropOperand

/-- What is left of the sequence of a call when the function called is entered. -/
def callRest : List Command := [.remove .frame, .setScore .brDepth noBranch]

theorem callSequence_eq (target : Symbol) (params : Nat) :
    callSequence target params = callFront params ++ .call target :: callRest := rfl

/-- The arguments go into a frame of their own, and are no longer on the operand stack. -/
theorem line_callFront (hstack : σ.operands = some (entries (low ++ args)))
    (hargs : args.length = n) (hn : n ≤ 2 ^ 31) (h : σ.frames = some (entries frames)) :
    Line tags ns (callFront n) σ ((σ.setFrames (frames ++ [entries args])).setOperands low) := by
  have hopened : (σ.setFrames (frames ++ [entries []])).operands = some (entries (low ++ args)) := by
    rwa [State.operands_setFrames]
  have hmove : Line tags ns ((List.range' 0 n).map (moveArgument n)) _ _ :=
    line_moveArguments hopened hargs hn n (Nat.zero_add n) (State.frames_setFrames _ _)
  rw [State.setFrames_setFrames, ← List.range_eq_range'] at hmove
  refine .append (.cons (steps_openFrame h) hmove) ?_
  rw [← hargs]
  exact line_dropArguments (by rwa [State.operands_setFrames])

/-- **A call comes to its target** with the arguments in a frame of their own, and no longer on the
    operand stack. -/
theorem leads_call (target : Symbol) (hstack : σ.operands = some (entries (low ++ args)))
    (hargs : args.length = n) (hn : n ≤ 2 ^ 31) (h : σ.frames = some (entries frames)) :
    Leads code (⟨ns, callSequence target n⟩ :: outer) σ (⟨ns, .call target :: callRest⟩ :: outer)
      ((σ.setFrames (frames ++ [entries args])).setOperands low) := by
  rw [callSequence_eq]
  exact (line_callFront hstack hargs hn h).leads

/-- Behind a call the frame is closed, and no branch is under way. -/
theorem leads_callRest (h : σ.frames = some (entries (frames ++ [x]))) :
    Leads code (⟨ns, callRest⟩ :: outer) σ outer ((σ.setFrames frames).setReg .brDepth noBranch) :=
  .plain (steps_closeFrame h) (.plain steps_setScore .leave)

/-- The locals behind the first `k` of them are copied onto the operand stack. -/
theorem line_pushLocals (hstack : σ.operands = some (entries (low ++ args.take k)))
    (hargs : args.length = n) (hn : n ≤ 2 ^ 31) (m : Nat) (hm : k + m = n)
    (h : σ.frames = some (entries (frames ++ [entries args]))) :
    Line tags ns ((List.range' k m).map (fun j => .appendFrom .stack (.local (UInt32.ofNat j)))) σ
      (σ.setOperands (low ++ args)) := by
  induction m generalizing σ k with
  | zero =>
    rw [Nat.add_zero] at hm
    rw [List.take_of_length_le (by omega)] at hstack
    rw [State.setOperands_eq_self hstack]
    exact .nil
  | succ m ih =>
    have hk : k < args.length := by omega
    have hp : position? (UInt32.ofNat k).toInt32 args.length = some k := by
      refine position?_of_lt ?_ hk
      rw [toInt_toInt32, toNat_ofNat_of_lt (by omega), if_pos (by omega)]
    have hstep : Steps tags ns (.appendFrom .stack (.local (UInt32.ofNat k))) σ [] _ :=
      steps_pushLocal hstack h hp (List.getElem?_eq_getElem hk)
    rw [List.append_assoc, List.take_append_getElem hk] at hstep
    refine .cons hstep ?_
    have hnext := @ih (σ.setOperands (low ++ args.take (k + 1))) (k + 1)
      (State.operands_setOperands _ _) (by omega) (by rwa [State.frames_setOperands])
    rwa [State.setOperands_setOperands] at hnext

/-- **An imported function passes its arguments on**: from its frame back onto the operand stack. -/
theorem leads_forward (target : Symbol) (hstack : σ.operands = some (entries low))
    (hargs : args.length = n) (hn : n ≤ 2 ^ 31)
    (h : σ.frames = some (entries (frames ++ [entries args]))) :
    Leads code (⟨ns, forwardCall target n⟩ :: outer) σ (⟨ns, [.call target]⟩ :: outer)
      (σ.setOperands (low ++ args)) := by
  unfold forwardCall
  rw [List.range_eq_range']
  exact (line_pushLocals (k := 0) (by rwa [List.take_zero, List.append_nil]) hargs hn n
    (Nat.zero_add n) h).leads

end WasmPack.Machine
