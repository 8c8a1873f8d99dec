/-
  WasmPack.Binary.Leb128

  Integers in LEB128: groups of seven bits, lowest first, every group but the
  last with its high bit set.  A `bits`-bit integer has at most `bits / 7`
  groups, rounded up; redundant groups within that bound are accepted, and the
  range is checked on the value.
-/
import WasmPack.Binary.Cursor

namespace WasmPack.Binary

/-- How many numbers can be written with `bits` bits. -/
def capacity (bits : Nat) : Nat := 1 <<< bits

/-- What a run of groups says: its value as a plain binary number, how many bits it spans, and
    whether the last group has its sign bit set. -/
structure Groups where
  value : Nat
  span : Nat
  negative : Bool
deriving DecidableEq, Inhabited

/-- The integer that a run of groups stands for when it is read as signed. -/
def Groups.toInt (g : Groups) : Int :=
  if g.negative then (g.value : Int) - capacity g.span else g.value

/-- Read groups up to the first without the continuation bit, at most `left` of them. -/
def readGroups : (left : Nat) → Decode Groups
  | 0 => fail .integerTooLong
  | left + 1 => do
    let b ← readByte
    let low := (b &&& 0x7F).toNat
    if b &&& 0x80 = 0 then
      return ⟨low, 7, b &&& 0x40 ≠ 0⟩
    else
      let rest ← readGroups left
      return ⟨low + 128 * rest.value, rest.span + 7, rest.negative⟩

/-- The most groups an integer of a number of bits may have. -/
def maxGroups (bits : Nat) : Nat := (bits + 6) / 7

/-- Fail at the byte that has just been read. -/
def failBehind (cause : Cause) : Decode α := do failAt ((← offset) - 1) cause

/-- Read an unsigned integer below `2 ^ bits`. -/
def readUnsigned (bits : Nat) : Decode Nat := do
  let g ← readGroups (maxGroups bits)
  if g.value < capacity bits then return g.value else failBehind .integerTooLarge

/-- Read a signed integer in `[-2 ^ (bits - 1), 2 ^ (bits - 1))`. -/
def readSigned (bits : Nat) : Decode Int := do
  let g ← readGroups (maxGroups bits)
  if -(capacity (bits - 1) : Int) ≤ g.toInt ∧ g.toInt < capacity (bits - 1) then return g.toInt
  else failBehind .integerTooLarge

/-! ## The widths the format uses -/

/-- Read an index, a count or a size. -/
def readU32 : Decode UInt32 := UInt32.ofNat <$> readUnsigned 32

/-- Read a type tag. -/
def readS7 : Decode Int := readSigned 7

/-- Read a 32-bit constant. -/
def readS32 : Decode Int32 := Int32.ofInt <$> readSigned 32

/-- Read a block type. -/
def readS33 : Decode Int := readSigned 33

/-- Read a 64-bit constant. -/
def readS64 : Decode Int64 := Int64.ofInt <$> readSigned 64

/-! ## Consumption -/

theorem keeps_readGroups : ∀ left, Keeps (readGroups left)
  | 0 => (advances_fail _).keeps
  | left + 1 => keeps_bind advances_readByte.keeps fun b => by
    dsimp only
    split
    · exact keeps_pure _
    · exact keeps_bind (keeps_readGroups left) fun _ => keeps_pure _

theorem keeps_failBehind (cause : Cause) : Keeps (failBehind cause : Decode α) :=
  keeps_bind keeps_offset fun _ => (advances_failAt _ _).keeps

theorem keeps_readUnsigned (bits : Nat) : Keeps (readUnsigned bits) :=
  keeps_bind (keeps_readGroups _) fun g => by
    split
    · exact keeps_pure _
    · exact keeps_failBehind _

theorem keeps_readSigned (bits : Nat) : Keeps (readSigned bits) :=
  keeps_bind (keeps_readGroups _) fun g => by
    split
    · exact keeps_pure _
    · exact keeps_failBehind _

theorem keeps_readU32 : Keeps readU32 := keeps_map _ (keeps_readUnsigned 32)

theorem keeps_readS32 : Keeps readS32 := keeps_map _ (keeps_readSigned 32)

theorem keeps_readS64 : Keeps readS64 := keeps_map _ (keeps_readSigned 64)

end WasmPack.Binary
