/-
  WasmPack.Proofs.State.Guards

  Guarding a command.  A guard asks whether a condition on scores holds, or
  whether it does not.  A guarded command is the command itself where the answer
  is as asked for, and no command at all where it is not, whatever modifiers the
  command has of its own and whatever it does.
-/
import WasmPack.Proofs.Closed.Mentions
import WasmPack.Proofs.State.Steps

namespace WasmPack

/-! ## Conditions -/

/-- How a comparison relates two numbers. -/
def Compare.Relates : Compare → Int → Int → Prop
  | lt, x, y => x < y
  | le, x, y => x ≤ y
  | eq, x, y => x = y
  | ge, x, y => x ≥ y
  | gt, x, y => x > y

namespace Condition

/-- What a condition says of the scores of registers. -/
def Met (score : Register → Int32) : Condition → Prop
  | isIn r range => (∀ least, range.min = some least → least.toInt ≤ (score r).toInt) ∧
      ∀ greatest, range.max = some greatest → (score r).toInt ≤ greatest.toInt
  | compare lhs op rhs => op.Relates (score lhs).toInt (score rhs).toInt

end Condition

namespace Machine

variable {s : Store} {condition : Condition} {score : Register → Int32}

theorem compare_holds_iff {op : Compare} {x y : Int32} :
    op.holds x y = true ↔ op.Relates x.toInt y.toInt := by
  cases op with
  | lt => exact decide_eq_true_iff.trans Int32.lt_iff_toInt_lt
  | le => exact decide_eq_true_iff.trans Int32.le_iff_toInt_le
  | eq => exact decide_eq_true_iff.trans Int32.toInt_inj.symm
  | ge => exact decide_eq_true_iff.trans Int32.le_iff_toInt_le
  | gt => exact decide_eq_true_iff.trans Int32.lt_iff_toInt_lt

theorem contains_iff {range : Range} {n : Int32} : range.contains n = true ↔
    (∀ least, range.min = some least → least.toInt ≤ n.toInt) ∧
      ∀ greatest, range.max = some greatest → n.toInt ≤ greatest.toInt := by
  unfold Range.contains
  rw [Bool.and_eq_true, Option.all_eq_true, Option.all_eq_true]
  simp only [decide_eq_true_iff, Int32.le_iff_toInt_le]

theorem read_of_score {r : Register} (h : s.scores.get? r = some (score r)) :
    s.read r = .ok (score r) := by
  rw [Store.read, h]
  rfl

/-- Where its registers have scores, a condition is decided by them. -/
theorem exists_holds (h : ∀ r ∈ condition.registers, s.scores.get? r = some (score r)) :
    ∃ b, holds s condition = .ok b ∧ (b = true ↔ condition.Met score) := by
  cases condition with
  | isIn r range =>
    refine ⟨range.contains (score r), ?_, contains_iff⟩
    rw [holds, read_of_score (h r (.head _))]
    rfl
  | compare lhs op rhs =>
    refine ⟨op.holds (score lhs) (score rhs), ?_, compare_holds_iff⟩
    rw [holds, read_of_score (h lhs (.head _)), read_of_score (h rhs (.tail _ (.head _)))]
    rfl

/-! ## Guards -/

/-- **Guarded commands.**  Where the registers of a condition have scores, a command that is guarded
    by the condition does exactly what the command does if the condition is met: it calls the same
    functions or ends with the same fault, and leaves the same store.  If the condition is not met,
    the guarded command calls nothing and changes nothing.  Guarded by the opposite of the condition,
    the command behaves the other way round. -/
theorem guarded_iff_met (tags : TagTable) (ns : String) (c : Command)
    (h : ∀ r ∈ condition.registers, s.scores.get? r = some (score r)) :
    (condition.Met score →
      step tags ns (c.guarded (.onlyIf condition)) s = step tags ns c s ∧
      step tags ns (c.guarded (.exceptIf condition)) s = .ok [] s) ∧
    (¬condition.Met score →
      step tags ns (c.guarded (.onlyIf condition)) s = .ok [] s ∧
      step tags ns (c.guarded (.exceptIf condition)) s = step tags ns c s) := by
  obtain ⟨b, hb, hmet⟩ := exists_holds h
  constructor
  · intro hyes
    rw [hmet.2 hyes] at hb
    exact ⟨step_of_gate (gate_onlyIf hb), step_of_gate_false (gate_exceptIf hb)⟩
  · intro hno
    rw [Bool.eq_false_iff.2 fun hyes => hno (hmet.1 hyes)] at hb
    exact ⟨step_of_gate_false (gate_onlyIf hb), step_of_gate (gate_exceptIf hb)⟩

/-- A test that fails reports it to its store, but not behind a guard whose condition is not met. -/
theorem guarded_iff_met_failing_test :
    step {} "demo" (.test [.store .success (.score .b), .ifIn .a (.exact 2)])
        { scores := [(.a, 5)] } = .ok [] { scores := [(.a, 5), (.b, 0)] } ∧
      step {} "demo" ((Command.test [.store .success (.score .b), .ifIn .a (.exact 2)]).guarded
        (.ifIn .a (.exact 1))) { scores := [(.a, 5)] } = .ok [] { scores := [(.a, 5)] } := by
  have hscore : ∀ r ∈ (Condition.isIn .a (.exact 1)).registers,
      Scores.get? r [(.a, 5)] = some ((fun _ => 5 : Register → Int32) r) := by decide
  have hunmet : ¬(Condition.isIn .a (.exact 1)).Met fun _ => 5 :=
    fun h => absurd (h.2 1 rfl) (by decide)
  exact ⟨rfl, ((guarded_iff_met {} "demo" _ hscore).2 hunmet).1⟩

end Machine

end WasmPack
