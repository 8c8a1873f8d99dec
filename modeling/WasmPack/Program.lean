/-
  WasmPack.Program

  What compilation produces: named command sequences, and the tags they join.
-/
import WasmPack.Command.Render

namespace WasmPack

/-- A command sequence under the symbol it is called by. -/
structure Sequence where
  symbol : Symbol
  commands : List Command
deriving DecidableEq, Inhabited

/-- The sequences of one namespace, in the order they are written, and the members that they
    give to tags. -/
structure Program where
  ns : String
  sequences : List Sequence
  tags : List (Tag × Symbol) := []
deriving Inhabited

namespace Program

/-- The name of the sequence that prepares the program when it is loaded. -/
def initName (p : Program) : String := Symbol.init.qualifiedName p.ns

/-- The number of commands in all sequences. -/
def commandCount (p : Program) : Nat := (p.sequences.flatMap (·.commands)).length

/-- The name of a sequence of the program. -/
def nameOf (p : Program) (s : Sequence) : String := s.symbol.qualifiedName p.ns

/-- The lines of a sequence of the program. -/
def linesOf (p : Program) (s : Sequence) : List String := s.commands.map (·.render p.ns)

/-- The names of the members that the program gives to a tag. -/
def tagMembers (p : Program) (tag : Tag) : List String :=
  (p.tags.filter fun (t, _) => t = tag).map fun (_, s) => s.qualifiedName p.ns

end Program

end WasmPack
