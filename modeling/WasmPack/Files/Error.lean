/-
  WasmPack.Files.Error

  Why a file cannot be read or written.
-/

namespace WasmPack.Files

/-- What the system says about a path. -/
inductive Errno where
  | noEntry
  | alreadyExists
  | notDirectory
  | isDirectory
  | nameTooLong
deriving DecidableEq, Inhabited

/-- The number of the error. -/
def Errno.number : Errno → Nat
  | noEntry => 2
  | alreadyExists => 17
  | notDirectory => 20
  | isDirectory => 21
  | nameTooLong => 36

/-- The error in words. -/
def Errno.text : Errno → String
  | noEntry => "No such file or directory"
  | alreadyExists => "File exists"
  | notDirectory => "Not a directory"
  | isDirectory => "Is a directory"
  | nameTooLong => "File name too long"

/-- Why a file cannot be read or written. -/
inductive FileError where
  /-- A name of a sequence without a namespace. -/
  | unqualified (name : String)
  /-- A name of a sequence that leads out of the pack. -/
  | escaping (name : String)
  /-- A path with a NUL character in it. -/
  | nulInPath
  | system (errno : Errno)
  /-- Anything else, in words. -/
  | other (text : String)
deriving DecidableEq, Inhabited

/-- The error in words. -/
def FileError.message : FileError → String
  | unqualified name => "unqualified name " ++ "\x60" ++ name ++ "\x60"
  | escaping name => "name escapes the pack " ++ "\x60" ++ name ++ "\x60"
  | nulInPath => "file name contained an unexpected NUL byte"
  | system e => e.text ++ " (os error " ++ toString e.number ++ ")"
  | other text => text

end WasmPack.Files
