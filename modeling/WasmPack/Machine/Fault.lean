/-
  WasmPack.Machine.Fault

  Why a run ends before its time.
-/
import WasmPack.Command.Render

namespace WasmPack.Machine

/-- What is wrong with the value at a path. -/
inductive Mismatch where
  /-- A value that takes no new element. -/
  | notAppendable
  /-- An operand that is not an integer. -/
  | foreignOperand (value : Nbt)
  | stackNotList
deriving DecidableEq, Inhabited

/-- The mismatch in words. -/
def Mismatch.message : Mismatch → String
  | notAppendable => "append target is not a list"
  | foreignOperand v => "stack holds " ++ v.render
  | stackNotList => "stack is not a list"

/-- Why a run ends before its time.  Paths are given as a module with its namespace names them. -/
inductive Fault where
  | unknownFunction (name : String)
  | unsetScore (register : Register)
  | missingPath (path : String)
  | typeMismatch (path : String) (mismatch : Mismatch)
  | storeOfCall
  | gasExhausted (limit : Nat)
deriving DecidableEq, Inhabited

/-- The fault in words. -/
def Fault.message : Fault → String
  | unknownFunction name => "unknown function: " ++ name
  | unsetScore r => "read of unset score " ++ r.name
  | missingPath path => "no value at " ++ path
  | typeMismatch path mismatch => "type mismatch at " ++ path ++ ": " ++ mismatch.message
  | storeOfCall => "cannot store the result of a function call"
  | gasExhausted limit => "gas exhausted after " ++ toString limit ++ " commands"

end WasmPack.Machine
