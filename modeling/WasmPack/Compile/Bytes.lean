/-
  WasmPack.Compile.Bytes

  From the bytes of a module to its program.
-/
import WasmPack.Binary.Module
import WasmPack.Compile.Module

namespace WasmPack.Compile

/-- Why bytes do not become a program. -/
inductive Failure where
  | decode (error : Binary.DecodeError)
  | compile (error : CompileError)
deriving DecidableEq, Inhabited

/-- The failure in words. -/
def Failure.message : Failure → String
  | decode e => e.message
  | compile e => e.message

/-- The module that bytes encode, if it can be compiled in a namespace at all.  The namespace is
    checked before the bytes are looked at. -/
def decodeFor (ns : String) (bytes : Array UInt8) : Except Failure Wasm.Module := do
  (checkNamespace ns).mapError .compile
  (Binary.decode bytes).mapError .decode

/-- The program of an encoded module. -/
def compileBytes (ns : String) (bytes : Array UInt8) : Except Failure Program := do
  let m ← decodeFor ns bytes
  (compileModule ns m).mapError .compile

end WasmPack.Compile
