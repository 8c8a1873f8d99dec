/-
  WasmPack.Files.Tree

  A tree of directories and files, and what the system does with paths in it.
  A path is followed segment by segment from the working directory or, with a
  slash in front, from the root.
-/
import WasmPack.Files.Error
import WasmPack.Files.Path
import WasmPack.Fields

namespace WasmPack.Files

/-! ## Nodes -/

/-- A file with its bytes, or a directory with its entries. -/
inductive Node where
  | file (bytes : Array UInt8)
  | dir (entries : List (String × Node))
deriving Inhabited

namespace Node

/-- The node that names lead to. -/
def find? : Node → List String → Option Node
  | node, [] => some node
  | .dir entries, name :: rest =>
    match Fields.get? name entries with
    | some child => find? child rest
    | none => none
  | .file _, _ :: _ => none

/-- Put a node under a name into the directory that names lead to. -/
def put (name : String) (child : Node) : List String → Node → Node
  | [], .dir entries => .dir (Fields.insert name child entries)
  | step :: rest, .dir entries =>
    .dir (Fields.modify step (fun node => (some (), put name child rest node)) entries).2
  | _, .file bytes => .file bytes

end Node

/-- A file system. -/
structure FileTree where
  root : Node := .dir []
  /-- The names that lead from the root to the working directory. -/
  cwd : List String := []
deriving Inhabited

/-! ## Following paths -/

/-- The longest name of a file, in bytes. -/
def maxName : Nat := 255

/-- The longest path, in bytes. -/
def maxPath : Nat := 4095

/-- The directory that a segment leads to from a directory. -/
def enter (root : Node) (here : List String) (segment : String) : Except Errno (List String) :=
  if isIdle segment then return here
  else if segment = ".." then return here.dropLast
  else if maxName < segment.utf8ByteSize then throw .nameTooLong
  else
    match root.find? (here ++ [segment]) with
    | some (.dir _) => return here ++ [segment]
    | some (.file _) => throw .notDirectory
    | none => throw .noEntry

/-- What the last segment of a path names in the directory that the others lead to. -/
structure Target where
  dir : List String
  /-- The name; without one the directory itself is meant. -/
  name : Option String
  /-- Whether there are slashes behind the name, so that it must be that of a directory. -/
  slashed : Bool
deriving DecidableEq, Inhabited

namespace FileTree

/-- Where a path begins. -/
def start (t : FileTree) (path : String) : List String :=
  if path.toList.head? = some '/' then [] else t.cwd

/-- The directory that segments lead to. -/
def walk (t : FileTree) (path : String) (segments : List String) : Except Errno (List String) :=
  segments.foldlM (enter t.root) (t.start path)

/-- Accept the text of a path. -/
def checkPath (path : String) : Except FileError Unit :=
  if path.toList.contains '\x00' then throw .nulInPath
  else if path.isEmpty then throw (.system .noEntry)
  else if maxPath < path.utf8ByteSize then throw (.system .nameTooLong)
  else return ()

/-- Follow a path up to its last segment. -/
def target (t : FileTree) (path : String) : Except FileError Target := do
  checkPath path
  let segments := Text.segments '/' path
  -- Slashes at the end do not name anything, but they ask for a directory.
  let trimmed := (segments.reverse.dropWhile (·.isEmpty)).reverse
  let dir ← (t.walk path trimmed.dropLast).mapError .system
  match trimmed.getLast? with
  | none => return ⟨dir, none, true⟩
  | some last =>
    if last = "." ∨ last = ".." then return ⟨dir, none, true⟩
    else if maxName < last.utf8ByteSize then throw (.system .nameTooLong)
    else return ⟨dir, some last, trimmed.length < segments.length⟩

/-- Whether a path leads to a directory. -/
def isDir (t : FileTree) (path : String) : Bool :=
  match checkPath path, t.walk path (Text.segments '/' path) with
  | .ok (), .ok _ => true
  | _, _ => false

/-! ## Reading and writing -/

/-- The bytes of a file. -/
def read (t : FileTree) (path : String) : Except FileError (Array UInt8) := do
  let target ← t.target path
  match target.name with
  | none => throw (.system .isDirectory)
  | some name =>
    match t.root.find? (target.dir ++ [name]) with
    | some (.file bytes) => if target.slashed then throw (.system .notDirectory) else return bytes
    -- A directory can be opened but not read.
    | some (.dir _) => throw (.system .isDirectory)
    | none => throw (.system .noEntry)

/-- Put a node under a name into a directory. -/
def put (t : FileTree) (dir : List String) (name : String) (node : Node) : FileTree :=
  { t with root := Node.put name node dir t.root }

/-- Write a file, whether or not it was there. -/
def write (t : FileTree) (path : String) (bytes : Array UInt8) : Except FileError FileTree := do
  let target ← t.target path
  match target.name, target.slashed with
  | some name, false =>
    match t.root.find? (target.dir ++ [name]) with
    | some (.dir _) => throw (.system .isDirectory)
    | _ => return t.put target.dir name (.file bytes)
  | _, _ => throw (.system .isDirectory)

/-! ## Making directories -/

/-- Make a directory. -/
def makeDir (t : FileTree) (path : String) : Except FileError FileTree := do
  let target ← t.target path
  match target.name with
  | none => throw (.system .alreadyExists)
  | some name =>
    match t.root.find? (target.dir ++ [name]) with
    | some _ => throw (.system .alreadyExists)
    | none => return t.put target.dir name (.dir [])

/-- Make a directory; one that is there already will do. -/
def ensureDir (t : FileTree) (path : String) : Except FileError FileTree :=
  match t.makeDir path with
  | .ok t => return t
  | .error e => if t.isDir path then return t else throw e

/-- Make the directory that comes first in a list, and before it the one that comes next, if it is
    missing.  Directories that could be made stay when a later one fails. -/
def makeChain (t : FileTree) : List String → Except FileError Unit × FileTree
  | [] => (.ok (), t)
  | path :: parents =>
    if path.isEmpty then (.ok (), t)
    else
      match t.makeDir path with
      | .ok t => (.ok (), t)
      | .error (.system .noEntry) =>
        -- The parent is missing: make it, then try again.
        match t.makeChain parents with
        | (.error e, t) => (.error e, t)
        | (.ok (), t) =>
          match t.ensureDir path with
          | .ok t => (.ok (), t)
          | .error e => (.error e, t)
      | .error e => (if t.isDir path then .ok () else .error e, t)

/-- Make a directory with all those above it. -/
def makeDirs (t : FileTree) (path : String) : Except FileError Unit × FileTree :=
  t.makeChain (ancestors path)

end FileTree

/-! ## All files -/

mutual

/-- All files of a node with their paths, which begin with `path`. -/
def filesOf (path : String) : Node → List (String × Array UInt8)
  | .file bytes => [(path, bytes)]
  | .dir entries => filesOfEntries path entries

/-- All files of the entries of a directory. -/
def filesOfEntries (path : String) : List (String × Node) → List (String × Array UInt8)
  | [] => []
  | (name, node) :: rest => filesOf (join path name) node ++ filesOfEntries path rest

end

end WasmPack.Files
