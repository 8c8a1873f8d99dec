/-
  WasmPack.Pack.Write

  Writing programs into a pack.
-/
import WasmPack.Files.Host
import WasmPack.Pack.Contents
import WasmPack.Pack.Location

namespace WasmPack.Pack

open Files

/-- How many files of each kind were written. -/
structure Summary where
  functions : Nat
  tags : Nat
deriving DecidableEq, Inhabited

variable [Monad m] [MonadExceptOf FileError m] [Host m]

/-- Write a file, and make the directories above it. -/
def writeBelow (path text : String) : m Unit := do
  match parent? path with
  | some dir => Host.makeDirs dir
  | none => pure ()
  Host.writeFile path text

/-- Write the file of a sequence. -/
def writeSequence (root : String) (p : Program) (s : Sequence) : m Unit := do
  let path ← liftExcept (functionPath root (p.nameOf s))
  writeBelow path (functionText (p.linesOf s))

/-- Write the file of a tag. -/
def writeTag (root : String) (tag : Tag) (members : List String) : m Unit := do
  let path ← liftExcept (tagPath root tag.name)
  writeBelow path (tagText members)

/-- Write programs into a pack with its root at a path: the file that describes the pack, then the
    sequences, then the tags. -/
def writePack (root description : String) (programs : List Program) : m Summary := do
  Host.makeDirs root
  writeBelow (join root "pack.mcmeta") (metaText description)
  programs.forM fun p => p.sequences.forM (writeSequence root p)
  let tags := tagEntries programs
  tags.forM fun (tag, members) => writeTag root tag members
  return ⟨(programs.flatMap (·.sequences)).length, tags.length⟩

end WasmPack.Pack
