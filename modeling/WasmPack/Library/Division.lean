/-
  WasmPack.Library.Division

  Division.  Scores divide downward and as signed numbers; these routines round
  toward zero, and divide unsigned numbers.  They take their operands in `#a`
  and `#b`.
-/
import WasmPack.Command.Basic

namespace WasmPack.Library

open Register

/-- Move a register by half the range, which takes the unsigned order to the signed one. -/
def biased (target source : Register) : List Command :=
  [.copy target source, .addScore target Int32.minValue]

/-- Run a command if `#e` is at least `#f`. -/
def ifNotBelow (command : Command) : Command := command.guarded (.onlyIf (.compare e .ge f))

/-- Signed quotient: rounding down is off by one where the remainder is not zero and the quotient
    is negative. -/
def divS : List Command :=
  [.copy c a,
    .operation c .mod b,
    .operation a .div b,
    ((Command.addScore a 1).ifIn a (.atMost (-1))).unlessIn c (.exact 0)]

/-- Signed remainder, which goes with the quotient that is rounded toward zero. -/
def remS : List Command :=
  [.copy c a,
    .operation c .mod b,
    .copy d a,
    .operation d .div b,
    ((Command.operation c .sub b).ifIn d (.atMost (-1))).unlessIn c (.exact 0),
    .copy a c]

/-- Unsigned quotient in `#c` and remainder in `#d`, by the sign of the divisor. -/
def udivmod : List Command :=
  [(Command.setScore c 0).ifIn b (.exact 0),
    (Command.copy d a).ifIn b (.exact 0),
    (Command.call (.routine .udivmodLarge)).ifIn b (.atMost (-1)),
    (Command.call (.routine .udivmodSmall)).ifIn b (.atLeast 1)]

/-- By a divisor in the upper half of the range: the quotient is 0 or 1. -/
def udivmodLarge : List Command :=
  biased e a ++ biased f b ++
    [.setScore c 0,
      ifNotBelow (.setScore c 1),
      .copy d a,
      (Command.operation d .sub b).ifIn c (.exact 1)]

/-- By a divisor in the lower half of the range, by the sign of the dividend. -/
def udivmodSmall : List Command :=
  [(Command.call (.routine .udivmodPos)).ifIn a (.atLeast 0),
    (Command.call (.routine .udivmodNeg)).ifIn a (.atMost (-1))]

/-- Both numbers in the lower half of the range. -/
def udivmodPos : List Command :=
  [.copy c a, .operation c .div b, .copy d a, .operation d .mod b]

/-- A dividend in the upper half of the range: divide all of its bits but the lowest, then bring
    that bit into the remainder. -/
def udivmodNeg : List Command :=
  -- All bits but the lowest into `#e`: halving keeps the sign, which half the range takes away.
  [.copy e a,
    .operation e .div (.const 2),
    .addScore e Int32.minValue,
    -- The lowest bit into `#f`.
    .copy f a,
    .operation f .mod (.const 2),
    -- Twice the quotient and twice the remainder of the upper bits, and the lowest bit.
    .copy c e,
    .operation c .div b,
    .operation c .mul (.const 2),
    .copy d e,
    .operation d .mod b,
    .operation d .mul (.const 2),
    .operation d .add f] ++
    -- The remainder is less than twice the divisor, so it takes it at most once more.
    biased e d ++ biased f b ++
    [ifNotBelow (.operation d .sub b), ifNotBelow (.addScore c 1)]

/-- Unsigned quotient. -/
def divU : List Command := [.call (.routine .udivmod), .copy a c]

/-- Unsigned remainder. -/
def remU : List Command := [.call (.routine .udivmod), .copy a d]

end WasmPack.Library
