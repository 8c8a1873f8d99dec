/-
  WasmPack.Nbt.Access

  Reading and changing a value along a path.

  Reading reaches stored values and the elements of byte arrays; changing goes
  down through stored values alone and treats an element of a byte array as part
  of its array.  A change that cannot be made leaves the value as it was.
-/
import WasmPack.Nbt.Basic
import WasmPack.Nbt.Path

namespace WasmPack.Nbt

/-! ## Indices -/

/-- The position that an index means in a list of `size` elements. -/
def position? (index : Int32) (size : Nat) : Option Nat :=
  let i := if index < 0 then (size : Int) + index.toInt else index.toInt
  if 0 ≤ i ∧ i < size then some i.toNat else none

/-! ## Reading -/

/-- What lies at a path: a stored value, or an element of a byte array. -/
inductive Slot where
  | stored (value : Nbt)
  | element (value : Int8)
deriving Inhabited

/-- The value in a slot. -/
def Slot.toNbt : Slot → Nbt
  | stored v => v
  | element b => .byte b

/-- What lies one segment down. -/
def child? : Nbt → Segment → Option Slot
  | compound fields, .key k => (Fields.get? k fields).map .stored
  | list items, .index i => do return .stored (← items[← position? i items.size]?)
  | bytes elements, .index i => do return .element (← elements[← position? i elements.size]?)
  | _, _ => none

/-- What lies at a path. -/
def lookup (root : Nbt) : List Segment → Option Slot
  | [] => some (.stored root)
  | segment :: rest =>
    match root.child? segment, rest with
    | some (.stored v), rest => lookup v rest
    | some (.element b), [] => some (.element b)
    | _, _ => none

/-- The stored value at a path. -/
def stored? (root : Nbt) : List Segment → Option Nbt
  | [] => some root
  | segment :: rest =>
    match root.child? segment with
    | some (.stored v) => stored? v rest
    | _ => none

/-- The number that a command reads off a value: a number itself, the number of characters of a
    text, or the number of entries. -/
def measure : Nbt → Int32
  | int n => n
  | byte b => b.toInt32
  | text s => Int32.ofNat s.length
  | list items => Int32.ofNat items.size
  | bytes elements => Int32.ofNat elements.size
  | compound fields => Int32.ofNat fields.length

/-- The number that a command reads off a slot. -/
def Slot.measure : Slot → Int32
  | stored v => v.measure
  | element b => b.toInt32

/-! ## Changing -/

/-- Change one element of an array and report on it. -/
def modifyElement (xs : Array Nbt) (i : Nat) (f : Nbt → Option β × Nbt) : Option β × Array Nbt :=
  if h : i < xs.size then
    let x := xs[i]
    -- The element is taken out while it changes, so that it can be changed in place.
    let xs := xs.set i default h
    let (b, x) := f x
    (b, xs.setIfInBounds i x)
  else (none, xs)

/-- Change the stored value at a path and report on it; nothing changes if there is none. -/
def modifyAt (f : Nbt → Option β × Nbt) : List Segment → Nbt → Option β × Nbt
  | [], node => f node
  | .key k :: rest, compound fields =>
    let (b, fields) := Fields.modify k (modifyAt f rest) fields
    (b, compound fields)
  | .index i :: rest, list items =>
    match position? i items.size with
    | some j =>
      let (b, items) := modifyElement items j (modifyAt f rest)
      (b, list items)
    | none => (none, list items)
  | _, node => (none, node)

/-- The byte that a number leaves in a byte array. -/
def toElement? : Nbt → Option Int8
  | byte b => some b
  | int n => some n.toInt8
  | _ => none

/-- Set what lies one segment down, and report whether that changed it.  A compound takes a new
    key, a byte array only numbers. -/
def writeChild (segment : Segment) (value : Nbt) : Nbt → Option Bool × Nbt
  | compound fields =>
    match segment with
    | .key k =>
      (some (Fields.get? k fields ≠ some value), compound (Fields.insert k value fields))
    | .index _ => (none, compound fields)
  | list items =>
    match segment with
    | .index i =>
      match position? i items.size with
      | some j => (some (items[j]? ≠ some value), list (items.setIfInBounds j value))
      | none => (none, list items)
    | .key _ => (none, list items)
  | bytes elements =>
    match segment with
    | .index i =>
      match position? i elements.size, toElement? value with
      | some j, some b =>
        (some (elements[j]? ≠ some b), bytes (elements.setIfInBounds j b))
      | _, _ => (none, bytes elements)
    | .key _ => (none, bytes elements)
  | node => (none, node)

/-- Remove what lies one segment down. -/
def removeChild (segment : Segment) : Nbt → Option Unit × Nbt
  | compound fields =>
    match segment with
    | .key k =>
      match Fields.get? k fields with
      | some _ => (some (), compound (Fields.erase k fields))
      | none => (none, compound fields)
    | .index _ => (none, compound fields)
  | list items =>
    match segment with
    | .index i =>
      match position? i items.size with
      | some j => (some (), list (items.eraseIdxIfInBounds j))
      | none => (none, list items)
    | .key _ => (none, list items)
  | bytes elements =>
    match segment with
    | .index i =>
      match position? i elements.size with
      | some j => (some (), bytes (elements.eraseIdxIfInBounds j))
      | none => (none, bytes elements)
    | .key _ => (none, bytes elements)
  | node => (none, node)

/-- Append to a list, or a number to a byte array. -/
def push (value : Nbt) : Nbt → Option Unit × Nbt
  | list items => (some (), list (items.push value))
  | bytes elements =>
    match toElement? value with
    | some b => (some (), bytes (elements.push b))
    | none => (none, bytes elements)
  | node => (none, node)

/-- Append to the value at a path, and report whether it takes the new one. -/
def append (path : List Segment) (value : Nbt) (root : Nbt) : Option Bool × Nbt :=
  modifyAt (fun node => let (pushed, node) := push value node; (some pushed.isSome, node)) path root

/-- The last segment of a path and those before it. -/
def splitLast? : List Segment → Option (List Segment × Segment)
  | [] => none
  | [segment] => some ([], segment)
  | segment :: rest => (splitLast? rest).map fun (parents, last) => (segment :: parents, last)

/-- Set the value at a path, and report whether that changed it. -/
def write (path : List Segment) (value : Nbt) (root : Nbt) : Option Bool × Nbt :=
  match splitLast? path with
  | some (parents, last) => modifyAt (writeChild last value) parents root
  | none => (none, root)

/-- Remove the value at a path. -/
def remove (path : List Segment) (root : Nbt) : Option Unit × Nbt :=
  match splitLast? path with
  | some (parents, last) => modifyAt (removeChild last) parents root
  | none => (none, root)

end WasmPack.Nbt
