/-
  WasmPack.Command.Render

  The text of a command, as it stands on a line of a function file.  Paths into
  a module's own storage and names of its sequences depend on its namespace.
-/
import WasmPack.Command.Basic

namespace WasmPack

/-- The sign of the operation. -/
def ScoreOp.sign : ScoreOp → String
  | assign => "="
  | add => "+="
  | sub => "-="
  | mul => "*="
  | div => "/="
  | mod => "%="
  | min => "<"
  | max => ">"
  | swap => "><"

/-- The sign of the comparison. -/
def Compare.sign : Compare → String
  | lt => "<"
  | le => "<="
  | eq => "="
  | ge => ">="
  | gt => ">"

/-- The text of a range: one number, or two with dots between them. -/
def Range.render : Range → String
  | ⟨some min, some max⟩ =>
    if min = max then toString min.toInt else toString min.toInt ++ ".." ++ toString max.toInt
  | ⟨some min, none⟩ => toString min.toInt ++ ".."
  | ⟨none, some max⟩ => ".." ++ toString max.toInt
  | ⟨none, none⟩ => ".."

/-- The text of a condition. -/
def Condition.render : Condition → String
  | isIn r range => "score " ++ r.render ++ " matches " ++ range.render
  | compare lhs op rhs => "score " ++ lhs.render ++ " " ++ op.sign ++ " " ++ rhs.render

/-- The name of the kind of number. -/
def NumericTag.name : NumericTag → String
  | int => "int"
  | byte => "byte"

/-- The name of the part of the outcome. -/
def StoreKind.name : StoreKind → String
  | result => "result"
  | success => "success"

/-- The text of a target; a number is stored into a storage without scaling. -/
def StoreTarget.render (ns : String) : StoreTarget → String
  | score r => "score " ++ r.render
  | storage path tag => "storage " ++ path.render ns ++ " " ++ tag.name ++ " 1"

/-- The text of a modifier. -/
def Modifier.render (ns : String) : Modifier → String
  | onlyIf c => "if " ++ c.render
  | exceptIf c => "unless " ++ c.render
  | store kind target => "store " ++ kind.name ++ " " ++ target.render ns

/-- The text of the modifiers of an `execute`. -/
def renderModifiers (ns : String) : List Modifier → String
  | [] => ""
  | m :: ms => " " ++ m.render ns ++ renderModifiers ns ms

/-- The text of a command that adds a number to a score.  A negative number is taken away; the
    least one has no opposite, so it is added from the register that holds it. -/
def renderAdd (r : Register) (delta : Int32) : String :=
  if delta = Int32.minValue then
    "scoreboard players operation " ++ r.render ++ " += " ++ (Register.const delta).render
  else if delta < 0 then
    "scoreboard players remove " ++ r.render ++ " " ++ toString (-delta.toInt)
  else
    "scoreboard players add " ++ r.render ++ " " ++ toString delta.toInt

/-- The text of a command of a module with the given namespace. -/
def Command.render (ns : String) : Command → String
  | setScore r v => "scoreboard players set " ++ r.render ++ " " ++ toString v.toInt
  | addScore r v => renderAdd r v
  | operation target op source =>
    "scoreboard players operation " ++ target.render ++ " " ++ op.sign ++ " " ++ source.render
  | getScore r => "scoreboard players get " ++ r.render
  | append path value =>
    "data modify storage " ++ path.render ns ++ " append value " ++ value.render
  | appendFrom path source =>
    "data modify storage " ++ path.render ns ++ " append from storage " ++
      source.render ns
  | setData path value =>
    "data modify storage " ++ path.render ns ++ " set value " ++ value.render
  | setFrom path source =>
    "data modify storage " ++ path.render ns ++ " set from storage " ++
      source.render ns
  | remove path => "data remove storage " ++ path.render ns
  | getData path => "data get storage " ++ path.render ns
  | call symbol => "function " ++ symbol.qualifiedName ns
  | callTag tag => "function #" ++ tag.name
  | addObjective => "scoreboard objectives add " ++ objective ++ " dummy"
  | test ms => "execute" ++ renderModifiers ns ms
  | execute ms run =>
    "execute" ++ renderModifiers ns ms ++ " run " ++ run.render ns

end WasmPack
