/-
  WasmPack.Library.Bits

  Shifts, rotates, bitwise operators and bit counts, bit by bit: doubling is a
  shift to the left, halving one to the right, and the remainder by two is the
  lowest bit.  The routines take their operands in `#a` and `#b`.
-/
import WasmPack.Command.Basic

namespace WasmPack.Library

open Register

/-! ## Shifts -/

/-- Reduce the count, and go on with `body` if there is anything to shift. -/
def shift (body : Routine) : List Command :=
  [.operation b .mod (.const 32), (Command.call (.routine body)).ifIn b (.atLeast 1)]

/-- Shift by one, and go on while the count lasts. -/
def shiftLoop (self : Routine) (step : Command) : List Command :=
  [step, .addScore b (-1), (Command.call (.routine self)).ifIn b (.atLeast 1)]

/-- Logical shift to the right by one, which clears the sign, and then arithmetic ones. -/
def shrUFirst : List Command :=
  [.copy c a,
    .operation a .div (.const 2),
    (Command.addScore a Int32.minValue).ifIn c (.atMost (-1)),
    .addScore b (-1),
    (Command.call (.routine .shrSLoop)).ifIn b (.atLeast 1)]

/-- Rotation to the left: both parts shifted to their places and put together. -/
def rotl : List Command :=
  -- No shift uses `#e` or `#f`, and `#d` is free as well.
  [.copy e a,
    .copy f b,
    .operation f .mod (.const 32),
    .call (.routine .shl),
    .copy d a,
    -- The bits that went out on the left; with a count of zero they are all of them, unmoved.
    .copy a e,
    .copy b (.const 32),
    .operation b .sub f,
    .call (.routine .shrU),
    .copy b d,
    .call (.routine .or)]

/-- Rotation to the right, as one to the left. -/
def rotr : List Command :=
  [.operation b .mod (.const 32),
    .copy e (.const 32),
    .operation e .sub b,
    .copy b e,
    .call (.routine .rotl)]

/-! ## Bitwise operators -/

/-- Collect the bits of the result in `#c`; `#d` is the weight of the bit at hand. -/
def bitwise (loop : Routine) : List Command :=
  [.setScore c 0, .setScore d 1, .call (.routine loop), .copy a c]

/-- Add the weight to the result if the number of ones among the two bits at hand lies in a range,
    and go on until the weight is gone. -/
def bitwiseLoop (self : Routine) (ones : Range) : List Command :=
  [.copy e a,
    .operation e .mod (.const 2),
    .copy f b,
    .operation f .mod (.const 2),
    .operation e .add f,
    (Command.operation c .add d).ifIn e ones,
    .operation a .div (.const 2),
    .operation b .div (.const 2),
    -- The weight behind that of the sign wraps around to zero.
    .operation d .mul (.const 2),
    (Command.call (.routine self)).unlessIn d (.exact 0)]

/-! ## Bit counts -/

/-- Leading zeros. -/
def clz : List Command :=
  [.setScore c 0,
    (Command.setScore c 32).ifIn a (.exact 0),
    (Command.call (.routine .clzLoop)).ifIn a (.atLeast 1),
    .copy a c]

/-- Shift to the left until the sign is set. -/
def clzLoop : List Command :=
  [.addScore c 1,
    .operation a .mul (.const 2),
    (Command.call (.routine .clzLoop)).ifIn a (.atLeast 1)]

/-- Trailing zeros. -/
def ctz : List Command :=
  [.setScore c 0,
    (Command.setScore c 32).ifIn a (.exact 0),
    (Command.call (.routine .ctzLoop)).unlessIn a (.exact 0),
    .copy a c]

/-- Shift to the right until the lowest bit is set. -/
def ctzLoop : List Command :=
  [.copy e a,
    .operation e .mod (.const 2),
    (Command.addScore c 1).ifIn e (.exact 0),
    (Command.operation a .div (.const 2)).ifIn e (.exact 0),
    (Command.call (.routine .ctzLoop)).ifIn e (.exact 0)]

/-- Count the bits in `#c`; `#d` is the weight of the bit at hand. -/
def popcnt : List Command :=
  [.setScore c 0, .setScore d 1, .call (.routine .popcntLoop), .copy a c]

/-- Add the lowest bit, and go on until the weight is gone. -/
def popcntLoop : List Command :=
  [.copy e a,
    .operation e .mod (.const 2),
    .operation c .add e,
    .operation a .div (.const 2),
    .operation d .mul (.const 2),
    (Command.call (.routine .popcntLoop)).unlessIn d (.exact 0)]

end WasmPack.Library
