/-
  WasmPack.Compile.Name

  Which namespaces and names can become names of command sequences.
-/
import WasmPack.Compile.Error
import WasmPack.Nbt.Path
import WasmPack.Text.Segments

namespace WasmPack.Compile

/-- The characters of namespaces and of the segments of names. -/
def isNameChar (c : Char) : Bool :=
  ('a' ≤ c && c ≤ 'z') || ('0' ≤ c && c ≤ '9') || c = '_' || c = '.' || c = '-'

/-- A segment is not empty and does not stand for a directory that already has a name. -/
def isNameSegment (segment : List Char) : Bool :=
  segment ≠ [] && segment ≠ ['.'] && segment ≠ ['.', '.'] && segment.all isNameChar

/-- Accept a namespace for a module of its own: not empty, of name characters, not too long, and
    not the shared one. -/
def checkNamespace (ns : String) : Except CompileError Unit :=
  if maxNamespaceLength < ns.utf8ByteSize then throw (.namespaceTooLong ns)
  else if ns.isEmpty || ns = sharedNamespace || !ns.toList.all isNameChar then
    throw (.invalidNamespace ns)
  else return ()

/-- Accept a name of one or more segments with slashes between them. -/
def checkName (kind : NameKind) (name : String) : Except CompileError Unit :=
  if (Text.cut '/' name.toList).all isNameSegment then return ()
  else throw (.invalidName kind name)

end WasmPack.Compile
