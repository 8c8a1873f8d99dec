/-
  WasmPack.Files.Path

  Paths of files as texts: the steps they consist of, and what can be told from
  the text alone.
-/
import WasmPack.Text.Segments

namespace WasmPack.Files

/-! ## Steps -/

/-- A step of a path. -/
inductive Component where
  | root
  | current
  | parent
  | normal (name : String)
deriving DecidableEq, Inhabited

/-- Whether a segment leads nowhere: nothing between two slashes, or a single dot. -/
def isIdle (segment : String) : Bool := segment.isEmpty || segment = "."

/-- The step that a segment stands for. -/
def component? (segment : String) : Option Component :=
  if isIdle segment then none
  else if segment = ".." then some .parent
  else some (.normal segment)

/-- The steps of a path.  A slash or a dot counts as a step at the beginning alone. -/
def components (path : String) : List Component :=
  match Text.segments '/' path with
  | [] => []
  | "" :: [] => []
  | "" :: rest => .root :: rest.filterMap component?
  | "." :: rest => .current :: rest.filterMap component?
  | segments => segments.filterMap component?

/-! ## Neighbours -/

/-- A path below another one. -/
def join (base part : String) : String :=
  if part.toList.head? = some '/' then part
  else if base.isEmpty || base.toList.getLast? = some '/' then base ++ part
  else base ++ "/" ++ part

/-- Segments without the idle ones at their end. -/
def dropIdle (segments : List String) : List String := (segments.reverse.dropWhile isIdle).reverse

/-- The text of segments behind the beginning of a path. -/
def assemble (start : String) : List String → String
  | [] => start
  | segments =>
    (if start = "." then "./" else start) ++ String.intercalate "/" segments

/-- The path without its last step, if it has one that can be left out. -/
def parent? (path : String) : Option String :=
  let (start, body) := match Text.segments '/' path with
    | "" :: second :: rest => ("/", second :: rest)
    | "." :: rest => (".", rest)
    | segments => ("", segments)
  match dropIdle body with
  | [] => if start = "." then some "" else none
  | segments => some (assemble start (dropIdle segments.dropLast))

/-- A path and those that come from it by leaving out last steps, up to `count` of them. -/
def ancestorsUpTo : (count : Nat) → String → List String
  | 0, path => [path]
  | count + 1, path =>
    path :: match parent? path with
      | some parent => ancestorsUpTo count parent
      | none => []

/-- A path and those that come from it by leaving out last steps.  Every step has a character, so
    there are no more of them than that. -/
def ancestors (path : String) : List String := ancestorsUpTo path.length path

/-! ## Names of files -/

/-- The name of the file that a path leads to. -/
def fileName? (path : String) : Option String :=
  match (components path).getLast? with
  -- A path that ends by going up leads to a directory whose name it does not say.
  | some (.normal name) => some name
  | _ => none

/-- A name without what follows its last dot; a dot at the beginning does not count. -/
def stem (name : String) : String :=
  let front := String.intercalate "." (Text.segments '.' name).dropLast
  if front.isEmpty then name else front

end WasmPack.Files
