/-
  WasmPack.Command.Register

  Registers: named 32-bit integers that commands compute with.
-/

namespace WasmPack

/-- The objective that every register is a score of. -/
def objective : String := "masm"

/-- The value of `#br_depth` while no branch is under way. -/
def noBranch : Int32 := Int32.maxValue

/-- The number of bytes in a page of memory. -/
def pageSize : Nat := 65536

/-- A register. -/
inductive Register where
  | a
  | b
  | c
  | d
  | e
  | f
  /-- The byte address handed to the operations of a memory. -/
  | index
  /-- The address of a load or a store while its bytes are handled. -/
  | address
  /-- The depth of the construct that a branch under way targets, or `noBranch`. -/
  | brDepth
  | pageFault
  | targetPage
  | targetAddress
  | swap
  /-- A constant. -/
  | const (value : Int32)
deriving DecidableEq, Inhabited

namespace Register

/-- The name of the register. -/
def name : Register → String
  | a => "#a"
  | b => "#b"
  | c => "#c"
  | d => "#d"
  | e => "#e"
  | f => "#f"
  | index => "#index"
  | address => "#address"
  | brDepth => "#br_depth"
  | pageFault => "#page_fault"
  | targetPage => "#target_page"
  | targetAddress => "#target_address"
  | swap => "#swap"
  | const n => "#" ++ toString n.toInt

/-- The register as a command mentions it. -/
def render (r : Register) : String := r.name ++ " " ++ objective

/-- The constants that are set when a pack is loaded. -/
def seeded : List Int32 := [2, 32, 256, Int32.ofNat pageSize, 16777216, Int32.minValue]

end Register

end WasmPack
