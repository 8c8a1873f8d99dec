/-
  WasmPack.Files.Host

  What a program needs from the system it runs on, and a world that offers it
  as a state: a file tree, the standard input, and the texts that were shown.
-/
import WasmPack.Files.Tree

namespace WasmPack.Files

/-- A system to run on; every operation but `tell` may fail with a `FileError`. -/
class Host (m : Type → Type) where
  /-- The bytes of a file. -/
  readFile : (path : String) → m (Array UInt8)
  /-- All bytes of the standard input. -/
  readInput : m (Array UInt8)
  /-- Make a directory with all those above it. -/
  makeDirs : (path : String) → m Unit
  /-- Write a file, whether or not it was there. -/
  writeFile : (path text : String) → m Unit
  /-- Show a text to the user. -/
  tell : (text : String) → m Unit

/-- A world to run in. -/
structure World where
  tree : FileTree := {}
  input : Array UInt8 := #[]
  told : List String := []
deriving Inhabited

/-- Work in a world. -/
abbrev Work := EStateM FileError World

namespace World

/-- Read the bytes of a file. -/
def readFile (path : String) : Work (Array UInt8) := fun w =>
  match w.tree.read path with
  | .ok bytes => .ok bytes w
  | .error e => .error e w

/-- Make a directory with all those above it. -/
def makeDirs (path : String) : Work Unit := fun w =>
  match w.tree.makeDirs path with
  | (.ok (), tree) => .ok () { w with tree }
  | (.error e, tree) => .error e { w with tree }

/-- Write a file. -/
def writeFile (path text : String) : Work Unit := fun w =>
  match w.tree.write path text.toUTF8.data with
  | .ok tree => .ok () { w with tree }
  | .error e => .error e w

end World

instance : Host Work where
  readFile := World.readFile
  readInput := fun w => .ok w.input w
  makeDirs := World.makeDirs
  writeFile := World.writeFile
  tell := fun text w => .ok () { w with told := w.told ++ [text] }

end WasmPack.Files
