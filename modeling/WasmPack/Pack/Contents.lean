/-
  WasmPack.Pack.Contents

  What stands in the files of a pack.
-/
import WasmPack.Program
import WasmPack.Text.Json

namespace WasmPack.Pack

open Text

/-! ## Tags -/

/-- Change the members of a tag.  Tags stand in the order of their names, and one that is not yet
    there has no members. -/
def updateEntry (tag : Tag) (change : List String → List String) :
    List (Tag × List String) → List (Tag × List String)
  | [] => [(tag, change [])]
  | (other, names) :: rest =>
    if other = tag then
      (tag, change names) :: rest
    else if tag.name < other.name then
      (tag, change []) :: (other, names) :: rest
    else
      (other, names) :: updateEntry tag change rest

/-- Let a sequence run when the pack is loaded, if it prepares something.  The library goes before
    everything else. -/
def enterSequence (entries : List (Tag × List String)) (name : String) :
    Symbol → List (Tag × List String)
  | .routine .load => updateEntry .load (name :: ·) entries
  | .init => updateEntry .load (· ++ [name]) entries
  | _ => entries

/-- Enter what a program gives to tags. -/
def enterProgram (entries : List (Tag × List String)) (p : Program) : List (Tag × List String) :=
  let entries := p.sequences.foldl (fun es s => enterSequence es (p.nameOf s) s.symbol) entries
  p.tags.foldl (fun es (tag, s) => updateEntry tag (· ++ [s.qualifiedName p.ns]) es) entries

/-- The tags that have members, with their members. -/
def tagEntries (programs : List Program) : List (Tag × List String) :=
  programs.foldl enterProgram []

/-! ## Texts -/

/-- The format of packs that is written. -/
def packFormat : Nat := 41

/-- A JSON value as the text of a file. -/
def jsonText (value : Json) : String := value.pretty ++ "\n"

/-- The text of the file that describes the pack. -/
def metaText (description : String) : String :=
  jsonText (.obj [("pack",
    .obj [("description", .str description), ("pack_format", .int packFormat)])])

/-- The text of the file of a tag. -/
def tagText (members : List String) : String :=
  jsonText (.obj [("values", .arr (members.map .str))])

/-- The text of the file of a sequence: one line per command. -/
def functionText (lines : List String) : String := String.intercalate "\n" lines ++ "\n"

end WasmPack.Pack
