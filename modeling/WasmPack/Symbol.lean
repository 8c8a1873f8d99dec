/-
  WasmPack.Symbol

  The command sequences that can be called, and their names.  A sequence is
  known by what it is for; `Symbol.qualifiedName` is the one place where that
  becomes text.
-/
import WasmPack.Nbt.Path

namespace WasmPack

/-! ## Parts of symbols -/

/-- Where an import comes from: a namespace and a name in it. -/
structure ExternalId where
  origin : String
  member : String
deriving DecidableEq, Inhabited

/-- The operations on a memory. -/
inductive MemoryOp where
  | get
  | set
  | size
  | grow
  | swapIn
  | swapOut
  | growUnchecked
  | growLoop
deriving DecidableEq, Inhabited

namespace MemoryOp

/-- The last part of the name of the operation's sequence. -/
def name : MemoryOp → String
  | get => "get"
  | set => "set"
  | size => "size"
  | grow => "grow"
  | swapIn => "swap_in"
  | swapOut => "swap_out"
  | growUnchecked => "grow_unchecked"
  | growLoop => "grow_loop"

/-- Every operation. -/
def all : List MemoryOp :=
  [get, set, size, grow, swapIn, swapOut, growUnchecked, growLoop]

/-- The operations that other modules may call. -/
def exported : List MemoryOp := [get, set, size, grow]

end MemoryOp

/-- The operations on a global. -/
inductive GlobalOp where
  | get
  | set
deriving DecidableEq, Inhabited

/-- The last part of the name of the operation's sequence. -/
def GlobalOp.name : GlobalOp → String
  | get => "get"
  | set => "set"

/-- What a dispatch tree selects. -/
inductive TreeBase where
  /-- The page of a memory to load into the window. -/
  | swapIn (memory : UInt32)
  /-- The page of a memory to store the window into. -/
  | swapOut (memory : UInt32)
  /-- The byte of the window to read. -/
  | byteGet
  /-- The byte of the window to write. -/
  | byteSet
deriving DecidableEq, Inhabited

/-- The routines of the library that all modules share. -/
inductive Routine where
  | load
  | byteGet
  | byteSet
  | divS
  | remS
  | divU
  | remU
  | udivmod
  | udivmodLarge
  | udivmodSmall
  | udivmodPos
  | udivmodNeg
  | shl
  | shlLoop
  | shrS
  | shrSLoop
  | shrU
  | shrUFirst
  | rotl
  | rotr
  | and
  | andLoop
  | or
  | orLoop
  | xor
  | xorLoop
  | clz
  | clzLoop
  | ctz
  | ctzLoop
  | popcnt
  | popcntLoop
deriving DecidableEq, Inhabited

namespace Routine

/-- The name of the routine inside the library. -/
def name : Routine → String
  | load => "load"
  | byteGet => "mem/get"
  | byteSet => "mem/set"
  | divS => "div_s"
  | remS => "rem_s"
  | divU => "div_u"
  | remU => "rem_u"
  | udivmod => "udivmod"
  | udivmodLarge => "udivmod/large"
  | udivmodSmall => "udivmod/small"
  | udivmodPos => "udivmod/pos"
  | udivmodNeg => "udivmod/neg"
  | shl => "shl"
  | shlLoop => "shl/loop"
  | shrS => "shr_s"
  | shrSLoop => "shr_s/loop"
  | shrU => "shr_u"
  | shrUFirst => "shr_u/first"
  | rotl => "rotl"
  | rotr => "rotr"
  | and => "and"
  | andLoop => "and/loop"
  | or => "or"
  | orLoop => "or/loop"
  | xor => "xor"
  | xorLoop => "xor/loop"
  | clz => "clz"
  | clzLoop => "clz/loop"
  | ctz => "ctz"
  | ctzLoop => "ctz/loop"
  | popcnt => "popcnt"
  | popcntLoop => "popcnt/loop"

/-- Every routine. -/
def all : List Routine :=
  [load, byteGet, byteSet, divS, remS, divU, remU, udivmod, udivmodLarge, udivmodSmall,
    udivmodPos, udivmodNeg, shl, shlLoop, shrS, shrSLoop, shrU, shrUFirst, rotl, rotr, and,
    andLoop, or, orLoop, xor, xorLoop, clz, clzLoop, ctz, ctzLoop, popcnt, popcntLoop]

end Routine

/-! ## Symbols -/

/-- A sequence that can be called. -/
inductive Symbol where
  /-- The body of a function; its arguments are in the innermost frame. -/
  | func (index : UInt32)
  /-- A fragment of code of the module's pool. -/
  | fragment (index : UInt32)
  | memory (index : UInt32) (op : MemoryOp)
  /-- Stores the page window if one of the module's memories owns it. -/
  | swapOutAll
  | global (index : UInt32) (op : GlobalOp)
  /-- The node of a dispatch tree for the keys from `lo` to `hi`. -/
  | tree (base : TreeBase) (lo hi : Nat)
  /-- An exported function; its arguments are on the operand stack. -/
  | exportFunc (name : String)
  | exportMemory (name : String) (op : MemoryOp)
  | exportGlobal (name : String) (op : GlobalOp)
  | importFunc (id : ExternalId)
  | importMemory (id : ExternalId) (op : MemoryOp)
  | importGlobal (id : ExternalId) (op : GlobalOp)
  /-- Prepares the module when it is loaded. -/
  | init
  | routine (routine : Routine)
deriving DecidableEq, Inhabited

/-- The part of a name that keeps a module's own sequences apart from its exports. -/
def internal (ns path : String) : String := ns ++ ":__internal/" ++ path

/-- The name that the nodes of a dispatch tree begin with. -/
def TreeBase.qualifiedName (ns : String) : TreeBase → String
  | swapIn m => internal ns ("mems/" ++ toString m.toNat ++ "/swap_in")
  | swapOut m => internal ns ("mems/" ++ toString m.toNat ++ "/swap_out")
  | byteGet => internal sharedNamespace "mem/get"
  | byteSet => internal sharedNamespace "mem/set"

/-- The name of an operation on a memory that other modules see. -/
def publicMemory (ns name : String) (op : MemoryOp) : String :=
  ns ++ ":__mems/" ++ name ++ "/" ++ op.name

/-- The name of an operation on a global that other modules see. -/
def publicGlobal (ns name : String) (op : GlobalOp) : String :=
  ns ++ ":__globals/" ++ name ++ "/" ++ op.name

/-- The name of a sequence, when a module with the given namespace mentions it. -/
def Symbol.qualifiedName (ns : String) : Symbol → String
  | func i => internal ns ("funcs/" ++ toString i.toNat)
  | fragment i => internal ns ("func_pool/" ++ toString i.toNat)
  | memory i op => internal ns ("mems/" ++ toString i.toNat ++ "/" ++ op.name)
  | swapOutAll => internal ns "mems/swap_out"
  | global i op => internal ns ("globals/" ++ toString i.toNat ++ "/" ++ op.name)
  | tree base lo hi =>
    base.qualifiedName ns ++ "/" ++ toString lo ++ "-" ++ toString hi
  | exportFunc name => ns ++ ":" ++ name
  | exportMemory name op => publicMemory ns name op
  | exportGlobal name op => publicGlobal ns name op
  | importFunc id => id.origin ++ ":" ++ id.member
  | importMemory id op => publicMemory id.origin id.member op
  | importGlobal id op => publicGlobal id.origin id.member op
  | init => ns ++ ":__init"
  | routine r => internal sharedNamespace r.name

/-! ## Tags -/

/-- A named list of sequences that are called together. -/
inductive Tag where
  /-- Stores the page window, whichever module owns it. -/
  | swapOut
  /-- Runs when a pack is loaded. -/
  | load
deriving DecidableEq, Inhabited

/-- The name of the tag. -/
def Tag.name : Tag → String
  | swapOut => "masm:__internal/mems/swap_out"
  | load => "minecraft:load"

/-- Every tag, in the order of their names. -/
def Tag.all : List Tag := [.swapOut, .load]

end WasmPack
