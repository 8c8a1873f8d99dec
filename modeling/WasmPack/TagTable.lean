/-
  WasmPack.TagTable

  The members of tags, by name and in the order in which they are called.
-/
import WasmPack.Program

namespace WasmPack

/-- The members of every tag. -/
structure TagTable where
  swapOut : List String := []
  load : List String := []
deriving DecidableEq, Inhabited

namespace TagTable

/-- The members of a tag. -/
def members (t : TagTable) : Tag → List String
  | .swapOut => t.swapOut
  | .load => t.load

/-- Add a member behind those that a tag has. -/
def add (t : TagTable) (name : String) : Tag → TagTable
  | .swapOut => { t with swapOut := t.swapOut ++ [name] }
  | .load => { t with load := t.load ++ [name] }

/-- Let a sequence run when a pack is loaded, if it is there to prepare something.  The library
    goes before everything else. -/
def addSequence (t : TagTable) (name : String) : Symbol → TagTable
  | .routine .load => { t with load := name :: t.load }
  | .init => t.add name .load
  | _ => t

/-- Add what a program gives to tags. -/
def addProgram (t : TagTable) (p : Program) : TagTable :=
  let t := p.sequences.foldl (fun t s => t.addSequence (p.nameOf s) s.symbol) t
  p.tags.foldl (fun t (tag, s) => t.add (s.qualifiedName p.ns) tag) t

end TagTable

end WasmPack
