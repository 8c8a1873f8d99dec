/-
  WasmPack.Pack.Location

  Where in a pack the files of sequences and tags lie.  A name that would lead
  out of its directory has no place in a pack.
-/
import WasmPack.Files.Error
import WasmPack.Files.Path

namespace WasmPack.Pack

open Files

/-- A name taken apart at its first colon. -/
structure QualifiedName where
  ns : String
  path : String
deriving DecidableEq, Inhabited

/-- Whether a path only goes down, and at least one step. -/
def isContained (path : String) : Bool :=
  !path.isEmpty && (components path).all fun
    | .normal _ => true
    | _ => false

/-- Take a name apart, if both parts stay in the directories they stand for. -/
def splitName (name : String) : Except FileError QualifiedName :=
  match Text.cutFirst? ':' name.toList with
  | none => throw (.unqualified name)
  | some (front, back) =>
    let ns := String.ofList front
    let path := String.ofList back
    if isContained ns && isContained path && !front.contains '/' then return ⟨ns, path⟩
    else throw (.escaping name)

/-- The directory of a namespace. -/
def dataDir (root ns : String) : String := join (join root "data") ns

/-- The file of a sequence. -/
def functionPath (root name : String) : Except FileError String := do
  let q ← splitName name
  return join (join (dataDir root q.ns) "functions") (q.path ++ ".mcfunction")

/-- The file of a tag. -/
def tagPath (root name : String) : Except FileError String := do
  let q ← splitName name
  return join (join (join (dataDir root q.ns) "tags") "functions") (q.path ++ ".json")

end WasmPack.Pack
