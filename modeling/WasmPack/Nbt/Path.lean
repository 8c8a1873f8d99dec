/-
  WasmPack.Nbt.Path

  Where in which storage a value lies.
-/

namespace WasmPack

/-- The storages that a module uses: one that all modules share, and one of its own. -/
inductive Storage where
  | shared
  | own
deriving DecidableEq, Inhabited

/-- The namespace of the shared storage and of the sequences that all modules use. -/
def sharedNamespace : String := "masm"

/-- The identifier of a storage, for a module with the given namespace. -/
def Storage.id (ns : String) : Storage → String
  | shared => sharedNamespace ++ ":__internal"
  | own => ns ++ ":__internal"

/-- One step down into a value: a field of a compound or an element of a list.  A negative index
    counts from the end. -/
inductive Segment where
  | key (key : String)
  | index (index : Int32)
deriving DecidableEq, Inhabited

/-- A path into a storage. -/
structure Path where
  storage : Storage
  segments : List Segment
deriving DecidableEq, Inhabited

namespace Path

/-- A field at the top of the shared storage. -/
def shared (key : String) : Path := ⟨.shared, [.key key]⟩

/-- A field at the top of the module's own storage. -/
def own (key : String) : Path := ⟨.own, [.key key]⟩

/-- A field of the value at a path. -/
def key (p : Path) (key : String) : Path := { p with segments := p.segments ++ [.key key] }

/-- An element of the value at a path. -/
def index (p : Path) (i : Int32) : Path := { p with segments := p.segments ++ [.index i] }

/-! ## Text -/

/-- The text of the segments behind others; a key is set off from what stands before it. -/
def segmentsText : (first : Bool) → List Segment → String
  | _, [] => ""
  | first, .key k :: rest =>
    (if first then k else "." ++ k) ++ segmentsText (first && k.isEmpty) rest
  | _, .index i :: rest => "[" ++ toString i.toInt ++ "]" ++ segmentsText false rest

/-- The text of the path inside its storage. -/
def text (p : Path) : String := segmentsText true p.segments

/-- The text of the path with its storage. -/
def render (ns : String) (p : Path) : String := p.storage.id ns ++ " " ++ p.text

end Path

/-! ## The lists that compiled code works on -/

/-- The operand stack. -/
def Path.stack : Path := .shared "stack"

/-- An operand; `-1` is the top. -/
def Path.operand (i : Int32) : Path := Path.stack.index i

/-- The frames of the functions under way. -/
def Path.frames : Path := .shared "frames"

/-- The frame of the innermost function. -/
def Path.frame : Path := Path.frames.index (-1)

/-- A local of the innermost function. -/
def Path.local (i : UInt32) : Path := Path.frame.index i.toInt32

/-- The conditions of the `if` instructions under way. -/
def Path.conditions : Path := .shared "conditions"

end WasmPack
