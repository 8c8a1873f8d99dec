/-
  WasmPack.Fields

  Values under names.  The entries are kept in the order of the names, so two
  collections with the same entries are equal.  Where a name stands twice its
  first entry counts; no operation here adds a second entry for a name.
-/

namespace WasmPack

/-- Values under names. -/
abbrev Fields (α : Type u) := List (String × α)

namespace Fields

/-- The value under a name. -/
def get? (key : String) : Fields α → Option α
  | [] => none
  | (k, v) :: rest => if k = key then some v else get? key rest

/-- Put a new name in its place in the order. -/
def place (key : String) (value : α) : Fields α → Fields α
  | [] => [(key, value)]
  | (k, v) :: rest =>
    if key < k then (key, value) :: (k, v) :: rest else (k, v) :: place key value rest

/-- Change the value under a name and report on it; without the name nothing changes. -/
def modify (key : String) (f : α → Option β × α) : Fields α → Option β × Fields α
  | [] => (none, [])
  | (k, v) :: rest =>
    if k = key then
      let (b, v) := f v
      (b, (k, v) :: rest)
    else
      let (b, rest) := modify key f rest
      (b, (k, v) :: rest)

/-- Set the value under a name, whether or not it has one. -/
def insert (key : String) (value : α) (fields : Fields α) : Fields α :=
  match (modify key (fun _ => (some (), value)) fields) with
  | (some (), fields) => fields
  | (none, fields) => place key value fields

/-- Give a name a value if it has none. -/
def ensure (key : String) (value : α) (fields : Fields α) : Fields α :=
  match get? key fields with
  | some _ => fields
  | none => place key value fields

/-- Remove a name with its value. -/
def erase (key : String) : Fields α → Fields α
  | [] => []
  | (k, v) :: rest => if k = key then rest else (k, v) :: erase key rest

/-- The given entries, a later one for a name replacing an earlier one. -/
def ofList (entries : List (String × α)) : Fields α :=
  entries.foldl (fun fields (k, v) => insert k v fields) []

end Fields

end WasmPack
