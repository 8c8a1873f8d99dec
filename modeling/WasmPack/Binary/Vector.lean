/-
  WasmPack.Binary.Vector

  Data with a length in front: vectors of items, and names.
-/
import WasmPack.Binary.Leb128

namespace WasmPack.Binary

/-- Read a count and that many items. -/
def readVec (item : Decode α) : Decode (List α) := do
  let count ← readU32
  readItems item count.toNat []

/-- Read a name: a length in bytes, and that many bytes of UTF-8. -/
def readName : Decode String := do
  let length ← readU32
  let start ← offset
  let bytes ← readBytes length.toNat
  match String.fromUTF8? ⟨bytes.toArray⟩ with
  | some name => return name
  | none => failAt start .malformedUtf8

theorem keeps_readVec {item : Decode α} (hi : Keeps item) : Keeps (readVec item) :=
  keeps_bind keeps_readU32 fun _ => keeps_readItems hi _ _

theorem keeps_readName : Keeps readName :=
  keeps_bind keeps_readU32 fun _ => keeps_bind keeps_offset fun _ =>
    keeps_bind (keeps_readBytes _) fun _ => by
      split
      · exact keeps_pure _
      · exact (advances_failAt _ _).keeps

end WasmPack.Binary
