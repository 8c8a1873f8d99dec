/-
  WasmPack.Text.Segments

  A text cut at every occurrence of a character, or at the first one.
-/

namespace WasmPack.Text

/-- The parts of a list between the occurrences of `separator`, empty ones included. -/
def cut (separator : Char) : List Char → List (List Char)
  | [] => [[]]
  | c :: rest =>
    if c = separator then [] :: cut separator rest
    else
      match cut separator rest with
      | [] => [[c]]
      | part :: parts => (c :: part) :: parts

/-- What stands before and behind the first occurrence of `separator`. -/
def cutFirst? (separator : Char) : List Char → Option (List Char × List Char)
  | [] => none
  | c :: rest =>
    if c = separator then some ([], rest)
    else (cutFirst? separator rest).map fun (front, back) => (c :: front, back)

/-- The parts of a text between the occurrences of `separator`, empty ones included. -/
def segments (separator : Char) (s : String) : List String :=
  (cut separator s.toList).map String.ofList

end WasmPack.Text
