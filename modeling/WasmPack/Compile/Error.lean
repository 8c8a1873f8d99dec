/-
  WasmPack.Compile.Error

  Why a module cannot be compiled.
-/
import WasmPack.Text.Quoted
import WasmPack.Wasm.Module

namespace WasmPack.Compile

open Wasm

/-- Where a value type stands that is not supported. -/
inductive TypeSite where
  | signature (index : Nat)
  | locals (function : Nat)
  | global (index : Nat)
  | importedGlobal (origin member : String)
  | blockResult
deriving DecidableEq, Inhabited

/-- The value type with its place, in words. -/
def TypeSite.describe (t : ValueType) : TypeSite → String
  | signature i => t.name ++ " in type " ++ toString i
  | locals i => t.name ++ " in locals of function " ++ toString i
  | global i => t.name ++ " in global " ++ toString i
  | importedGlobal origin member => t.name ++ " in imported global " ++ origin ++ "." ++ member
  | blockResult => t.name ++ " block result"

/-- A feature of modules that command sequences cannot express. -/
inductive Feature where
  | tableImport (origin member : String)
  | tableExport (name : String)
deriving DecidableEq, Inhabited

/-- The feature in words. -/
def Feature.describe : Feature → String
  | tableImport origin member => "table import " ++ origin ++ "." ++ member
  | tableExport name => "table export " ++ name

/-- Whose name it is. -/
inductive NameKind where
  | exported
  | imported
deriving DecidableEq, Inhabited

/-- The kind in words. -/
def NameKind.describe : NameKind → String
  | exported => "export"
  | imported => "import"

/-- What an index counts. -/
inductive IndexKind where
  | type
  | function
  | memory
  | global
  | local
deriving DecidableEq, Inhabited

/-- The kind in words. -/
def IndexKind.describe : IndexKind → String
  | type => "type"
  | function => "function"
  | memory => "memory"
  | global => "global"
  | «local» => "local"

/-- The longest namespace, in bytes. -/
def maxNamespaceLength : Nat := 16

/-- The most pages a memory may have. -/
def maxPages : UInt32 := 65536

/-- A bound that is exceeded. -/
inductive Excess where
  /-- The maximum of a memory. -/
  | pages (max : UInt32)
  /-- The minimum of a memory, by its own maximum. -/
  | minimum (min max : UInt32)
  | nesting
deriving DecidableEq, Inhabited

/-- The excess in words. -/
def Excess.describe : Excess → String
  | pages max =>
    "memory maximum of " ++ toString max.toNat ++ " pages exceeds " ++ toString maxPages.toNat
  | minimum min max =>
    "memory minimum of " ++ toString min.toNat ++ " pages exceeds its maximum of " ++
      toString max.toNat
  | nesting => "control flow nested deeper than " ++ toString maxNesting

/-- Why a module cannot be compiled. -/
inductive CompileError where
  | unsupportedType (type : ValueType) (site : TypeSite)
  | unsupportedInstruction (mnemonic : String)
  | unsupported (feature : Feature)
  | namespaceTooLong (ns : String)
  | invalidNamespace (ns : String)
  | invalidName (kind : NameKind) (name : String)
  | invalidIndex (kind : IndexKind) (index : UInt32)
  | invalidLabel (label : UInt32) (depth : Nat)
  | stackUnderflow (mnemonic : String)
  | limitExceeded (excess : Excess)
  /-- A height does not fit in 32 bits.  This is a fault of code generation, not of the module. -/
  | overflow
deriving DecidableEq, Inhabited

/-- The error in words. -/
def CompileError.message : CompileError → String
  | unsupportedType t site => "unsupported type: " ++ site.describe t
  | unsupportedInstruction mnemonic => "unsupported instruction: " ++ mnemonic
  | unsupported feature => "unsupported feature: " ++ feature.describe
  | namespaceTooLong ns =>
    "namespace '" ++ ns ++ "' is longer than " ++ toString maxNamespaceLength ++ " characters"
  | invalidNamespace ns => "invalid namespace '" ++ ns ++ "'"
  | invalidName kind name => "invalid " ++ kind.describe ++ " name " ++ Text.quoted name
  | invalidIndex kind index =>
    kind.describe ++ " index " ++ toString index.toNat ++ " out of bounds"
  | invalidLabel label depth =>
    "branch label " ++ toString label.toNat ++ " out of range at depth " ++ toString depth
  | stackUnderflow mnemonic => "operand stack underflow at " ++ mnemonic
  | limitExceeded excess => "limit exceeded: " ++ excess.describe
  | overflow => "attempt to add with overflow"

end WasmPack.Compile
