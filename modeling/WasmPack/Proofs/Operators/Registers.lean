/-
  WasmPack.Proofs.Operators.Registers

  Commands that compute with registers, one rule for each kind of them.  A rule
  takes a run from behind the command to a run from in front of it, so a routine
  is gone through from its first command to its last, and a guard splits what is
  left into two cases.
-/
import WasmPack.Proofs.Execution.Library
import WasmPack.Proofs.Execution.Runs

namespace WasmPack.Machine

variable {code : Code} {ns : String} {c : Command} {cs ds : List Command} {σ σ₁ τ : State}
  {Q Q' : State → Prop} {r q p : Register} {m n k : Int32} {range : Range} {rs qs : List Register}

/-! ## Ranges -/

theorem contains_atLeast : (Range.atLeast m).contains n = true ↔ m.toInt ≤ n.toInt := by
  show (decide (m ≤ n) && true) = true ↔ _
  rw [Bool.and_true, decide_eq_true_eq, Int32.le_iff_toInt_le]

theorem contains_atMost : (Range.atMost m).contains n = true ↔ n.toInt ≤ m.toInt := by
  show (true && decide (n ≤ m)) = true ↔ _
  rw [Bool.true_and, decide_eq_true_eq, Int32.le_iff_toInt_le]

theorem contains_between :
    (Range.between m k).contains n = true ↔ m.toInt ≤ n.toInt ∧ n.toInt ≤ k.toInt := by
  show (decide (m ≤ n) && decide (n ≤ k)) = true ↔ _
  rw [Bool.and_eq_true, decide_eq_true_eq, decide_eq_true_eq, Int32.le_iff_toInt_le,
    Int32.le_iff_toInt_le]

theorem contains_positive : (Range.atLeast 1).contains n = true ↔ 0 < n.toInt := contains_atLeast

theorem contains_nonnegative : (Range.atLeast 0).contains n = true ↔ 0 ≤ n.toInt :=
  contains_atLeast

theorem contains_negative : (Range.atMost (-1)).contains n = true ↔ n.toInt < 0 := by
  have hone : (-1 : Int32).toInt = -1 := rfl
  rw [contains_atMost, hone]
  omega

/-! ## Changes of registers -/

/-- Nothing has changed but some registers. -/
structure Touches (rs : List Register) (σ τ : State) : Prop where
  regs : ∀ r, r ∉ rs → τ.regs r = σ.regs r
  cells : τ.cells = σ.cells

namespace Touches

@[simp] theorem refl : Touches rs σ σ := ⟨fun _ _ => rfl, rfl⟩

theorem trans (h : Touches rs σ σ₁) (h' : Touches rs σ₁ τ) : Touches rs σ τ :=
  ⟨fun r hr => (h'.regs r hr).trans (h.regs r hr), h'.cells.trans h.cells⟩

theorem mono (h : Touches rs σ τ) (hsub : rs ⊆ qs) : Touches qs σ τ :=
  ⟨fun r hr => h.regs r fun hrs => hr (hsub hrs), h.cells⟩

/-- A register that may be touched is set. -/
@[simp] theorem setReg_iff (hr : r ∈ rs) : Touches rs σ (τ.setReg r n) ↔ Touches rs σ τ := by
  have hregs : ∀ q, q ∉ rs → (τ.setReg r n).regs q = τ.regs q := by
    intro q hq
    have hne : q ≠ r := by
      rintro rfl
      exact hq hr
    rw [State.regs_setReg, if_neg hne]
  constructor
  · intro h
    exact ⟨fun q hq => (hregs q hq).symm.trans (h.regs q hq), h.cells⟩
  · intro h
    exact ⟨fun q hq => (hregs q hq).trans (h.regs q hq), h.cells⟩

/-- A register that is not touched holds what it held. -/
theorem read (h : Touches rs σ τ) (hr : r ∉ rs) (hn : σ.regs r = some n) : τ.regs r = some n :=
  (h.regs r hr).trans hn

end Touches

/-! ## Runs to their end -/

/-- From the state the commands run to their end, and leave a state with the property. -/
def Computes (code : Code) (ns : String) (cs : List Command) (σ : State) (Q : State → Prop) : Prop :=
  ∃ τ, Runs code [⟨ns, cs⟩] σ (.ok ()) τ ∧ Q τ

namespace Computes

theorem nil (h : Q σ) : Computes code ns [] σ Q := ⟨σ, .nil, h⟩

theorem mono (h : Computes code ns cs σ Q) (hQ : ∀ τ, Q τ → Q' τ) : Computes code ns cs σ Q' := by
  obtain ⟨τ, hruns, hτ⟩ := h
  exact ⟨τ, hruns, hQ τ hτ⟩

/-- Commands in sequence. -/
theorem seq (h : Computes code ns cs σ Q) (h' : ∀ τ, Q τ → Computes code ns ds τ Q') :
    Computes code ns (cs ++ ds) σ Q' := by
  obtain ⟨τ, hruns, hτ⟩ := h
  obtain ⟨υ, hruns', hυ⟩ := h' τ hτ
  exact ⟨υ, hruns.seq hruns', hυ⟩

/-- A command that calls nothing. -/
theorem plain (hs : Steps code.tags ns c σ [] σ₁) (h : Computes code ns cs σ₁ Q) :
    Computes code ns (c :: cs) σ Q := by
  obtain ⟨τ, hruns, hτ⟩ := h
  exact ⟨τ, .plain hs hruns, hτ⟩

theorem set (h : Computes code ns cs (σ.setReg r n) Q) :
    Computes code ns (.setScore r n :: cs) σ Q := plain steps_setScore h

theorem add (hr : σ.regs r = some m) (h : Computes code ns cs (σ.setReg r (m + n)) Q) :
    Computes code ns (.addScore r n :: cs) σ Q := plain (steps_addScore hr) h

theorem copy (hq : σ.regs q = some n) (h : Computes code ns cs (σ.setReg r n) Q) :
    Computes code ns (.copy r q :: cs) σ Q := plain (steps_copy hq) h

theorem op {op : ScoreOp} (hop : op ≠ .swap) (hr : σ.regs r = some m) (hq : σ.regs q = some n)
    (h : Computes code ns cs (σ.setReg r (applyOp op m n)) Q) :
    Computes code ns (.operation r op q :: cs) σ Q := plain (steps_operation hop hr hq) h

/-- A guard is asked before the command behind it. -/
theorem guarded {g : Modifier} {b : Bool} (hg : σ.allows g = some b)
    (hyes : b = true → Computes code ns (c :: cs) σ Q) (hno : b = false → Computes code ns cs σ Q) :
    Computes code ns (c.guarded g :: cs) σ Q := by
  cases b with
  | true =>
    obtain ⟨τ, hruns, hτ⟩ := hyes rfl
    exact ⟨τ, .guarded hg hruns, hτ⟩
  | false =>
    obtain ⟨τ, hruns, hτ⟩ := hno rfl
    exact ⟨τ, .blocked hg hruns, hτ⟩

/-- A command that runs if a register is in a range. -/
theorem ifIn {p : Prop} (hp : range.contains n = true ↔ p) (hr : σ.regs r = some n)
    (hyes : p → Computes code ns (c :: cs) σ Q) (hno : ¬ p → Computes code ns cs σ Q) :
    Computes code ns (c.ifIn r range :: cs) σ Q := by
  apply guarded (allows_ifIn hr)
  · intro h
    exact hyes (hp.1 h)
  · intro h
    exact hno fun hn => by rw [hp.2 hn] at h; cases h

/-- A command that runs unless a register is in a range. -/
theorem unlessIn {p : Prop} (hp : range.contains n = true ↔ p) (hr : σ.regs r = some n)
    (hyes : ¬ p → Computes code ns (c :: cs) σ Q) (hno : p → Computes code ns cs σ Q) :
    Computes code ns (c.unlessIn r range :: cs) σ Q := by
  apply guarded (allows_unlessIn hr)
  · intro h
    exact hyes fun hn => by rw [hp.2 hn] at h; cases h
  · intro h
    exact hno (hp.1 (by simpa using h))

/-- A routine of the library is called. -/
theorem call (hlib : code.HasLibrary) {routine : Routine}
    (hbody : Computes code sharedNamespace (Library.routineCommands routine) σ Q)
    (h : ∀ τ, Q τ → Computes code ns cs τ Q') :
    Computes code ns (.call (.routine routine) :: cs) σ Q' := by
  obtain ⟨τ, hruns, hτ⟩ := hbody
  obtain ⟨υ, hruns', hυ⟩ := h τ hτ
  exact ⟨υ, .call .call (hlib.routine routine ns) hruns hruns', hυ⟩

/-- A routine of the library is called at the end. -/
theorem callLast (hlib : code.HasLibrary) {routine : Routine}
    (hbody : Computes code sharedNamespace (Library.routineCommands routine) σ Q) :
    Computes code ns [.call (.routine routine)] σ Q := call hlib hbody fun _ hτ => nil hτ

end Computes

end WasmPack.Machine
