/-
  WasmPack.Wasm.Dump

  A module as JSON, for reading by people and by tools.  Fields stand in a fixed
  order, and one that has no value is left out.
-/
import WasmPack.Text.Json
import WasmPack.Wasm.Module

namespace WasmPack.Wasm

open Text (Json)

/-! ## Types -/

/-- The field of an index, a count or a flag. -/
def u32Json (n : UInt32) : Json := .int n.toNat

/-- The type by its name. -/
def ValueType.toJson (t : ValueType) : Json := .str t.name

/-- Parameters and results. -/
def FuncType.toJson (t : FuncType) : Json :=
  .obj [("params", .arr (t.params.map (·.toJson))), ("results", .arr (t.results.map (·.toJson)))]

/-- The lower bound, and the upper bound if there is one. -/
def Limits.toJson (l : Limits) : Json :=
  .obj (("min", u32Json l.min) ::
    match l.max with
    | some max => [("max", u32Json max)]
    | none => [])

/-- The element type and the bounds. -/
def TableType.toJson (t : TableType) : Json :=
  .obj [("elem", .str "funcref"), ("limits", t.limits.toJson)]

/-- The value type and the mutability. -/
def GlobalType.toJson (t : GlobalType) : Json :=
  .obj [("value_type", t.valueType.toJson), ("mutable", .bool t.isMutable)]

/-- The signature of a block. -/
def BlockType.toJson : BlockType → Json
  | empty => .str "empty"
  | value t => .obj [("value", t.toJson)]
  | func i => .obj [("func", u32Json i)]

/-- The alignment and the offset of an access. -/
def MemArg.toJson (a : MemArg) : Json :=
  .obj [("align", u32Json a.align), ("offset", u32Json a.offset)]

/-! ## Instructions -/

/-- Put a text in capitals where a part of its name begins: at the start, behind `.` and behind
    `_`.  The marks themselves go. -/
def capitalize : (atStart : Bool) → List Char → List Char
  | _, [] => []
  | atStart, c :: rest =>
    if c = '.' ∨ c = '_' then capitalize true rest
    else (if atStart then c.toUpper else c) :: capitalize false rest

/-- The name of an operator as one word, e.g. `I32Load8S` for `i32.load8_s`. -/
def operatorName (mnemonic : String) : String := String.ofList (capitalize true mnemonic.toList)

/-- The object of an instruction. -/
def opJson (name : String) (fields : List (String × Json)) : Json :=
  .obj (("op", .str name) :: fields)

mutual

/-- The instruction with its immediates and bodies. -/
def Instr.toJson : Instr → Json
  | .unreachable => opJson "unreachable" []
  | .nop => opJson "nop" []
  | .block t body => opJson "block" [("ty", t.toJson), ("body", .arr (exprJson body))]
  | .loop t body => opJson "loop" [("ty", t.toJson), ("body", .arr (exprJson body))]
  | .ifElse t consequent alternative =>
    opJson "if" [("ty", t.toJson), ("consequent", .arr (exprJson consequent)),
      ("alternative", .arr (exprJson alternative))]
  | .br l => opJson "br" [("label", u32Json l)]
  | .brIf l => opJson "br_if" [("label", u32Json l)]
  | .brTable ls d =>
    opJson "br_table" [("labels", .arr (ls.map u32Json)), ("default", u32Json d)]
  | .ret => opJson "return" []
  | .call f => opJson "call" [("func", u32Json f)]
  | .callIndirect t i => opJson "call_indirect" [("ty", u32Json t), ("table", u32Json i)]
  | .drop => opJson "drop" []
  | .select => opJson "select" []
  | .localGet i => opJson "local_get" [("local", u32Json i)]
  | .localSet i => opJson "local_set" [("local", u32Json i)]
  | .localTee i => opJson "local_tee" [("local", u32Json i)]
  | .globalGet i => opJson "global_get" [("global", u32Json i)]
  | .globalSet i => opJson "global_set" [("global", u32Json i)]
  | .load op a => opJson "load" [("kind", .str (operatorName op.mnemonic)), ("arg", a.toJson)]
  | .store op a => opJson "store" [("kind", .str (operatorName op.mnemonic)), ("arg", a.toJson)]
  | .memorySize i => opJson "memory_size" [("mem", u32Json i)]
  | .memoryGrow i => opJson "memory_grow" [("mem", u32Json i)]
  | .i32Const v => opJson "i32_const" [("value", .int v.toInt)]
  | .i64Const v => opJson "i64_const" [("value", .int v.toInt)]
  | .f32Const b => opJson "f32_const" [("bits", u32Json b)]
  | .f64Const b => opJson "f64_const" [("bits", .int b.toNat)]
  | .numeric op => opJson "numeric" [("kind", .str (operatorName op.mnemonic))]

/-- The instructions of an expression. -/
def exprJson : Expr → List Json
  | [] => []
  | i :: rest => i.toJson :: exprJson rest

end

/-! ## Definitions -/

/-- What an import provides. -/
def ImportDesc.toJson : ImportDesc → Json
  | func t => .obj [("kind", .str "func"), ("ty", u32Json t)]
  | table t => .obj [("kind", .str "table"), ("ty", t.toJson)]
  | memory l => .obj [("kind", .str "mem"), ("limits", l.toJson)]
  | global t => .obj [("kind", .str "global"), ("ty", t.toJson)]

/-- An import with its origin. -/
def Import.toJson (i : Import) : Json :=
  .obj [("module", .str i.origin), ("name", .str i.member), ("desc", i.desc.toJson)]

/-- The name of an index space. -/
def ExportKind.name : ExportKind → String
  | func => "func"
  | table => "table"
  | memory => "mem"
  | global => "global"

/-- An export. -/
def Export.toJson (e : Export) : Json :=
  .obj [("name", .str e.name), ("kind", .str e.kind.name), ("index", u32Json e.index)]

/-- A function with its body. -/
def Func.toJson (f : Func) : Json :=
  .obj [("ty", u32Json f.typeIndex), ("locals", .arr (f.locals.map (·.toJson))),
    ("body", .arr (exprJson f.body))]

/-- A global with its initial value. -/
def Global.toJson (g : Global) : Json :=
  .obj [("ty", g.type.toJson), ("init", .arr (exprJson g.init))]

/-- An element segment. -/
def Elem.toJson (e : Elem) : Json :=
  .obj [("table", u32Json e.table), ("offset", .arr (exprJson e.offset)),
    ("init", .arr (e.init.map u32Json))]

/-- A data segment. -/
def Data.toJson (d : Data) : Json :=
  .obj [("mem", u32Json d.memory), ("offset", .arr (exprJson d.offset)),
    ("init", .arr (d.init.map fun b => .int b.toNat))]

/-- The whole module. -/
def Module.toJson (m : Module) : Json :=
  .obj ([("types", .arr (m.types.map (·.toJson))),
      ("imports", .arr (m.imports.map (·.toJson))),
      ("funcs", .arr (m.funcs.map (·.toJson))),
      ("tables", .arr (m.tables.map (·.toJson))),
      ("mems", .arr (m.memories.map (·.toJson))),
      ("globals", .arr (m.globals.map (·.toJson))),
      ("exports", .arr (m.exports.map (·.toJson)))] ++
    (match m.start with
      | some f => [("start", u32Json f)]
      | none => []) ++
    [("elems", .arr (m.elems.map (·.toJson))),
      ("data", .arr (m.data.map (·.toJson)))])

/-- The text of a module. -/
def Module.dump (m : Module) : String := m.toJson.pretty

end WasmPack.Wasm
