/-
  WasmPack.Machine.Arithmetic

  Arithmetic on scores: results wrap around, division rounds down, and a
  division by zero changes nothing.
-/
import WasmPack.Command.Basic

namespace WasmPack.Machine

/-- Quotient rounded down. -/
def floorDiv (lhs rhs : Int32) : Option Int32 :=
  if rhs = 0 then none else some (Int32.ofInt (lhs.toInt.fdiv rhs.toInt))

/-- Remainder that goes with the quotient rounded down; it has the sign of the divisor. -/
def floorMod (lhs rhs : Int32) : Option Int32 :=
  if rhs = 0 then none else some (Int32.ofInt (lhs.toInt.fmod rhs.toInt))

/-- The new score of the target of an operation. -/
def applyOp (op : ScoreOp) (lhs rhs : Int32) : Int32 :=
  match op with
  | .assign => rhs
  | .add => lhs + rhs
  | .sub => lhs - rhs
  | .mul => lhs * rhs
  | .div => (floorDiv lhs rhs).getD lhs
  | .mod => (floorMod lhs rhs).getD lhs
  | .min => min lhs rhs
  | .max => max lhs rhs
  | .swap => rhs

end WasmPack.Machine
