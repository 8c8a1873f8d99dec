/-
  WasmPack.CommandLine.Run

  What the command does: read a module, compile it, and write a pack.
-/
import WasmPack.CommandLine.Options
import WasmPack.Compile.Bytes
import WasmPack.Library.Basic
import WasmPack.Pack.Write
import WasmPack.Wasm.Dump

namespace WasmPack.CommandLine

open Files

/-! ## The namespace -/

/-- The input that stands for the standard input. -/
def standardInput : String := "-"

/-- A character of a namespace in place of one that may not be there. -/
def toNameChar (c : Char) : Char :=
  let c := c.toLower
  if Compile.isNameChar c then c else '_'

/-- The namespace that is made from the name of the input. -/
def defaultNamespace (input : String) : String :=
  match (fileName? input).map stem with
  | some name =>
    if name.isEmpty || name = standardInput then "module"
    else String.ofList (name.toList.map toNameChar)
  | none => "module"

/-! ## Failures -/

/-- Where and why the command fails. -/
inductive RunError where
  | readFile (path : String) (cause : FileError)
  | readInput (cause : FileError)
  | compile (path : String) (cause : Compile.Failure)
  | writePack (path : String) (cause : FileError)
deriving DecidableEq, Inhabited

/-- The failure in words, with its cause behind a colon. -/
def RunError.message : RunError → String
  | readFile path e => "failed to read " ++ path ++ ": " ++ e.message
  | readInput e => "failed to read module from stdin: " ++ e.message
  | compile path e => "failed to compile " ++ path ++ ": " ++ e.message
  | writePack path e => "failed to write data pack to " ++ path ++ ": " ++ e.message

/-! ## The command -/

variable [Monad m] [MonadExceptOf FileError m] [Host m]

/-- Do work, and say where it failed. -/
def during (place : FileError → RunError) (work : m α) : m (Except RunError α) :=
  tryCatchThe FileError (Except.ok <$> work) fun e => return .error (place e)

/-- Read the module. -/
def readModule (path : String) : m (Except RunError (Array UInt8)) :=
  if components path = components standardInput then during .readInput Host.readInput
  else during (.readFile path) (Host.readFile path)

/-- Compile the module, and show it if the user wants that. -/
def compileFor (o : Options) (bytes : Array UInt8) : m (Except RunError Program) := do
  let ns := o.ns.getD (defaultNamespace o.input)
  match Compile.decodeFor ns bytes with
  | .error e => return .error (.compile o.input e)
  | .ok decoded =>
    if o.dump then Host.tell decoded.dump
    match Compile.compileModule ns decoded with
    | .error e => return .error (.compile o.input (.compile e))
    | .ok program => return .ok program

/-- The programs of the pack: the library, unless it is unwanted, and the module's. -/
def packed (o : Options) (program : Program) : List Program :=
  if o.noLibrary then [program] else [Library.program, program]

/-- Read a module, compile it, and write a pack. -/
def run (o : Options) : m (Except RunError Pack.Summary) := do
  match ← readModule o.input with
  | .error e => return .error e
  | .ok bytes =>
    match ← compileFor o bytes with
    | .error e => return .error e
    | .ok program =>
      during (.writePack o.output) (Pack.writePack o.output o.description (packed o program))

end WasmPack.CommandLine
