/-
  WasmPack.Nbt.Basic

  The values that storages hold, and their text in commands.
-/
import WasmPack.Fields

namespace WasmPack

/-- A storage value. -/
inductive Nbt where
  | int (value : Int32)
  | byte (value : Int8)
  | text (value : String)
  | list (items : Array Nbt)
  | bytes (elements : Array Int8)
  | compound (fields : List (String × Nbt))
deriving Inhabited

namespace Nbt

/-- The list without elements. -/
def emptyList : Nbt := list #[]

/-! ## Equality -/

mutual

/-- Whether two values are the same. -/
def same : Nbt → Nbt → Bool
  | int a, int b => a == b
  | byte a, byte b => a == b
  | text a, text b => a == b
  | list ⟨as⟩, list ⟨bs⟩ => sameItems as bs
  | bytes a, bytes b => a == b
  | compound as, compound bs => sameFields as bs
  | _, _ => false

/-- Whether two lists of values are the same. -/
def sameItems : List Nbt → List Nbt → Bool
  | [], [] => true
  | a :: as, b :: bs => same a b && sameItems as bs
  | _, _ => false

/-- Whether two collections of fields are the same. -/
def sameFields : List (String × Nbt) → List (String × Nbt) → Bool
  | [], [] => true
  | (j, a) :: as, (k, b) :: bs => j == k && same a b && sameFields as bs
  | _, _ => false

end

mutual

theorem same_iff : ∀ a b : Nbt, same a b = true ↔ a = b
  | int a, b => by cases b <;> simp [same]
  | byte a, b => by cases b <;> simp [same]
  | text a, b => by cases b <;> simp [same]
  | list ⟨as⟩, b => by
    cases b with
    | list bs => obtain ⟨bs⟩ := bs; simp [same, sameItems_iff as bs]
    | _ => simp [same]
  | bytes a, b => by cases b <;> simp [same]
  | compound as, b => by
    cases b with
    | compound bs => simp [same, sameFields_iff as bs]
    | _ => simp [same]

theorem sameItems_iff : ∀ as bs : List Nbt, sameItems as bs = true ↔ as = bs
  | [], bs => by cases bs <;> simp [sameItems]
  | a :: as, bs => by
    cases bs with
    | nil => simp [sameItems]
    | cons b bs => simp [sameItems, same_iff a b, sameItems_iff as bs]

theorem sameFields_iff : ∀ as bs : List (String × Nbt), sameFields as bs = true ↔ as = bs
  | [], bs => by cases bs <;> simp [sameFields]
  | (j, a) :: as, bs => by
    cases bs with
    | nil => simp [sameFields]
    | cons b bs => simp [sameFields, same_iff a b.2, sameFields_iff as bs, Prod.ext_iff]

end

instance : DecidableEq Nbt := fun a b => decidable_of_iff _ (same_iff a b)

/-! ## Text -/

/-- A character inside a string literal. -/
def escapeChar (c : Char) : List Char :=
  if c = '\\' ∨ c = '\x22' then ['\\', c] else [c]

/-- A string literal. -/
def quote (s : String) : String := "\"" ++ String.ofList (s.toList.flatMap escapeChar) ++ "\""

/-- The text of a byte. -/
def byteText (b : Int8) : String := toString b.toInt ++ "b"

mutual

/-- The text of a value. -/
def render : Nbt → String
  | int n => toString n.toInt
  | byte b => byteText b
  | text s => quote s
  | list ⟨items⟩ => "[" ++ String.intercalate "," (renderItems items) ++ "]"
  | bytes elements => "[B;" ++ String.intercalate "," (elements.toList.map byteText) ++ "]"
  | compound fields => "\x7b" ++ String.intercalate "," (renderFields fields) ++ "\x7d"

/-- The texts of the items of a list. -/
def renderItems : List Nbt → List String
  | [] => []
  | item :: rest => render item :: renderItems rest

/-- The texts of the fields of a compound. -/
def renderFields : List (String × Nbt) → List String
  | [] => []
  | (key, value) :: rest => (key ++ ":" ++ render value) :: renderFields rest

end

end Nbt

end WasmPack
