/-
  WasmPack.Text.Json

  JSON values without fractions, and their text over several lines: two spaces
  per level, one entry per line, and an empty list or object on one line.
-/
import WasmPack.Text.Quoted

namespace WasmPack.Text

/-- A JSON value.  The fields of an object keep the order they are given in. -/
inductive Json where
  | bool (value : Bool)
  | int (value : Int)
  | str (value : String)
  | arr (items : List Json)
  | obj (fields : List (String × Json))
deriving Inhabited

namespace Json

/-! ## Strings -/

/-- A character as it stands inside a string literal. -/
def escapeChar (c : Char) : String :=
  if c = '\x22' then "\\\""
  else if c = '\\' then "\\\\"
  else if c = '\x08' then "\\b"
  else if c = '\t' then "\\t"
  else if c = '\n' then "\\n"
  else if c = '\x0c' then "\\f"
  else if c = '\r' then "\\r"
  -- The control characters that have no short form.
  else if c.toNat < 0x20 then "\\u" ++ hex 4 c.toNat
  else String.singleton c

/-- A string literal. -/
def quote (s : String) : String :=
  "\"" ++ String.join (s.toList.map escapeChar) ++ "\""

/-! ## Layout -/

/-- A line break and the indentation of a level. -/
def newline (level : Nat) : String := "\n" ++ String.ofList (List.replicate (2 * level) ' ')

/-- The entries of a list or an object at `level`, between its brackets. -/
def bracket (left right : String) (level : Nat) : List String → String
  | [] => left ++ right
  | entries =>
    left ++ newline (level + 1) ++ String.intercalate ("," ++ newline (level + 1)) entries ++
      newline level ++ right

mutual

/-- The text of a value that stands at `level`. -/
def render (level : Nat) : Json → String
  | bool b => if b then "true" else "false"
  | int n => toString n
  | str s => quote s
  | arr items => bracket "[" "]" level (renderItems (level + 1) items)
  | obj fields => bracket "\x7b" "\x7d" level (renderFields (level + 1) fields)

/-- The texts of the items of a list. -/
def renderItems (level : Nat) : List Json → List String
  | [] => []
  | item :: rest => render level item :: renderItems level rest

/-- The texts of the fields of an object. -/
def renderFields (level : Nat) : List (String × Json) → List String
  | [] => []
  | (key, value) :: rest => (quote key ++ ": " ++ render level value) :: renderFields level rest

end

/-- The text of a value. -/
def pretty (value : Json) : String := render 0 value

end Json

end WasmPack.Text
