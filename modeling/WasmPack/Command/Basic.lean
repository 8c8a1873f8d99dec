/-
  WasmPack.Command.Basic

  The commands that compiled code consists of: arithmetic on scores, changes of
  storages, calls, and the conditional form `execute`.
-/
import WasmPack.Command.Register
import WasmPack.Nbt.Basic
import WasmPack.Nbt.Path
import WasmPack.Symbol

namespace WasmPack

/-! ## Arithmetic -/

/-- Operations between two scores.  Division rounds down, and the remainder goes with it. -/
inductive ScoreOp where
  | assign
  | add
  | sub
  | mul
  | div
  | mod
  | min
  | max
  | swap
deriving DecidableEq, Inhabited

/-- Comparisons of two scores. -/
inductive Compare where
  | lt
  | le
  | eq
  | ge
  | gt
deriving DecidableEq, Inhabited

/-- Whether two numbers compare so. -/
def Compare.holds (op : Compare) (lhs rhs : Int32) : Bool :=
  match op with
  | lt => lhs < rhs
  | le => lhs ≤ rhs
  | eq => lhs = rhs
  | ge => rhs ≤ lhs
  | gt => rhs < lhs

/-- A range of numbers with both ends included; an end that is missing is open. -/
structure Range where
  min : Option Int32
  max : Option Int32
deriving DecidableEq, Inhabited

namespace Range

/-- The range of one number. -/
def exact (n : Int32) : Range := ⟨some n, some n⟩

/-- The numbers from `min` to `max`. -/
def between (min max : Int32) : Range := ⟨some min, some max⟩

/-- The numbers from `min` on. -/
def atLeast (min : Int32) : Range := ⟨some min, none⟩

/-- The numbers up to `max`. -/
def atMost (max : Int32) : Range := ⟨none, some max⟩

/-- Whether a number lies in the range. -/
def contains (r : Range) (n : Int32) : Bool :=
  r.min.all (· ≤ n) && r.max.all (n ≤ ·)

end Range

/-! ## Conditions and stores -/

/-- A condition on scores. -/
inductive Condition where
  | isIn (register : Register) (range : Range)
  | compare (lhs : Register) (op : Compare) (rhs : Register)
deriving DecidableEq, Inhabited

/-- The kind of number that a store writes into a storage. -/
inductive NumericTag where
  | int
  | byte
deriving DecidableEq, Inhabited

/-- Where the outcome of a command goes. -/
inductive StoreTarget where
  | score (register : Register)
  | storage (path : Path) (tag : NumericTag)
deriving DecidableEq, Inhabited

/-- What part of the outcome is stored. -/
inductive StoreKind where
  | result
  | success
deriving DecidableEq, Inhabited

/-- What stands between `execute` and the command it runs. -/
inductive Modifier where
  | onlyIf (condition : Condition)
  | exceptIf (condition : Condition)
  | store (kind : StoreKind) (target : StoreTarget)
deriving DecidableEq, Inhabited

namespace Modifier

/-- Run only if a register lies in a range. -/
def ifIn (r : Register) (range : Range) : Modifier := .onlyIf (.isIn r range)

/-- Run only if a register lies outside a range. -/
def unlessIn (r : Register) (range : Range) : Modifier := .exceptIf (.isIn r range)

/-- Run only while no branch is under way. -/
def ifNoBranch : Modifier := ifIn .brDepth (.exact noBranch)

end Modifier

/-! ## Commands -/

/-- A command. -/
inductive Command where
  | setScore (target : Register) (value : Int32)
  | addScore (target : Register) (delta : Int32)
  | operation (target : Register) (op : ScoreOp) (source : Register)
  | getScore (source : Register)
  | append (path : Path) (value : Nbt)
  | appendFrom (path source : Path)
  | setData (path : Path) (value : Nbt)
  | setFrom (path source : Path)
  | remove (path : Path)
  | getData (path : Path)
  | call (symbol : Symbol)
  | callTag (tag : Tag)
  | addObjective
  /-- An `execute` whose outcome is whether its conditions hold. -/
  | test (modifiers : List Modifier)
  /-- An `execute` that runs a command. -/
  | execute (modifiers : List Modifier) (run : Command)
deriving DecidableEq, Inhabited

namespace Command

/-- Copy a score. -/
def copy (target source : Register) : Command := .operation target .assign source

/-- Copy the number at a path into a register. -/
def load (r : Register) (path : Path) : Command :=
  .execute [.store .result (.score r)] (.getData path)

/-- Copy a register into a number of the given kind at a path. -/
def saveAs (path : Path) (tag : NumericTag) (r : Register) : Command :=
  .execute [.store .result (.storage path tag)] (.getScore r)

/-- Copy a register into an integer at a path. -/
def save (path : Path) (r : Register) : Command := saveAs path .int r

/-- Remove the top of the operand stack. -/
def dropOperand : Command := .remove (.operand (-1))

/-- Put a modifier in front of a command; an `execute` takes it in front of its own. -/
def guarded (c : Command) (m : Modifier) : Command :=
  match c with
  | .test ms => .test (m :: ms)
  | .execute ms run => .execute (m :: ms) run
  | c => .execute [m] c

/-- Run a command only if a register lies in a range. -/
def ifIn (c : Command) (r : Register) (range : Range) : Command := c.guarded (.ifIn r range)

/-- Run a command only if a register lies outside a range. -/
def unlessIn (c : Command) (r : Register) (range : Range) : Command := c.guarded (.unlessIn r range)

end Command

end WasmPack
