/-
  WasmPack.Proofs.Grammar.Module

  The binary grammar of modules: the entries of sections, the frames around
  sections, and the order in which they stand.
-/
import WasmPack.Binary.Section
import WasmPack.Proofs.Grammar.Instr

namespace WasmPack.Grammar

open Wasm

/-! ## Entries -/

/-- What an import provides. -/
inductive ImportDescForm : Production ImportDesc where
  | func {w : List UInt8} {i : UInt32} (h : U32 w i) : ImportDescForm (0x00 :: w) (.func i)
  | table {w : List UInt8} {t : TableType} (h : TableTypeForm w t) :
      ImportDescForm (0x01 :: w) (.table t)
  | memory {w : List UInt8} {l : Limits} (h : LimitsForm w l) :
      ImportDescForm (0x02 :: w) (.memory l)
  | global {w : List UInt8} {t : GlobalType} (h : GlobalTypeForm w t) :
      ImportDescForm (0x03 :: w) (.global t)

/-- An import. -/
inductive ImportForm : Production Import where
  | mk {u v w : List UInt8} {origin member : String} {desc : ImportDesc} (ho : Name u origin)
      (hm : Name v member) (hd : ImportDescForm w desc) :
      ImportForm (u ++ v ++ w) ⟨origin, member, desc⟩

/-- A global with its first value. -/
inductive GlobalForm : Production Global where
  | mk {u v : List UInt8} {type : GlobalType} {init : Expr} (ht : GlobalTypeForm u type)
      (hi : ExprForm 0 v init) : GlobalForm (u ++ v) ⟨type, init⟩

/-- The number of a kind of export. -/
def exportCode : ExportKind → UInt8
  | .func => 0x00
  | .table => 0x01
  | .memory => 0x02
  | .global => 0x03

/-- An export. -/
inductive ExportForm : Production Export where
  | mk {u v : List UInt8} {name : String} {kind : ExportKind} {index : UInt32} (hn : Name u name)
      (hi : U32 v index) : ExportForm (u ++ exportCode kind :: v) ⟨name, kind, index⟩

/-- An element segment. -/
inductive ElemForm : Production Elem where
  | mk {u v w : List UInt8} {table : UInt32} {offset : Expr} {init : List UInt32} (ht : U32 u table)
      (ho : ExprForm 0 v offset) (hi : Vec U32 w init) :
      ElemForm (u ++ v ++ w) ⟨table, offset, init⟩

/-- Bytes as they are. -/
def Raw : Production (List UInt8) := fun w bytes => w = bytes

/-- A data segment. -/
inductive DataForm : Production Data where
  | mk {u v w : List UInt8} {memory : UInt32} {offset : Expr} {init : List UInt8}
      (hm : U32 u memory) (ho : ExprForm 0 v offset) (hi : Prefixed Raw w init) :
      DataForm (u ++ v ++ w) ⟨memory, offset, init⟩

/-! ## Code -/

/-- A run of locals of one type. -/
inductive RunForm : Production (Nat × ValueType) where
  | mk {u v : List UInt8} {count : UInt32} {type : ValueType} (hc : U32 u count)
      (ht : ValueTypeForm v type) : RunForm (u ++ v) (count.toNat, type)

/-- The locals that runs make. -/
def expandRuns (runs : List (Nat × ValueType)) : List ValueType :=
  runs.flatMap fun (count, type) => List.replicate count type

/-- The locals of a function: runs that make at most 50000 of them. -/
def LocalsForm : Production (List ValueType) := fun w locals =>
  ∃ runs, Vec RunForm w runs ∧ expandRuns runs = locals ∧ locals.length ≤ 50000

/-- What the code section says about a function. -/
inductive FuncCodeForm : Production Binary.Code where
  | mk {u v : List UInt8} {locals : List ValueType} {body : Expr} (hl : LocalsForm u locals)
      (hb : ExprForm 0 v body) : FuncCodeForm (u ++ v) ⟨locals, body⟩

/-! ## Sections -/

/-- A custom section: a name that fits, and anything behind it. -/
inductive CustomForm : List UInt8 → Prop where
  | mk {s u v : List UInt8} {size : UInt32} {name : String} (hs : U32 s size) (hn : Name u name)
      (fits : size.toNat = (u ++ v).length) : CustomForm (0x00 :: (s ++ (u ++ v)))

/-- Any number of custom sections. -/
inductive CustomsForm : List UInt8 → Prop where
  | nil : CustomsForm []
  | cons {u v : List UInt8} (head : CustomForm u) (tail : CustomsForm v) : CustomsForm (u ++ v)

/-- A section with a number that may be missing, and the custom sections behind it. -/
inductive SectionForm {α : Type} (id : UInt8) (absent : α) (contents : Production α) :
    Production α where
  | absent : SectionForm id absent contents [] absent
  | present {u v : List UInt8} {a : α} (h : Prefixed contents u a) (hc : CustomsForm v) :
      SectionForm id absent contents (id :: (u ++ v)) a

/-- The start function. -/
def StartForm : Production (Option UInt32) := fun w start => ∃ i, start = some i ∧ U32 w i

/-! ## Modules -/

/-- The bytes in front: the magic bytes and version 1. -/
def preamble : List UInt8 := [0x00, 0x61, 0x73, 0x6D, 0x01, 0x00, 0x00, 0x00]

/-- The functions that type indices and entries of the code section make, in order. -/
def zipFuncs (types : List UInt32) (codes : List Binary.Code) : List Func :=
  List.zipWith (fun type code => ⟨type, code.locals, code.body⟩) types codes

/-- A module. -/
inductive ModuleForm : Production Module where
  | mk {c s₁ s₂ s₃ s₄ s₅ s₆ s₇ s₈ s₉ s₁₀ s₁₁ : List UInt8}
      {types : List FuncType} {imports : List Import} {funcTypes : List UInt32}
      {tables : List TableType} {memories : List Limits} {globals : List Global}
      {exports : List Export} {start : Option UInt32} {elems : List Elem}
      {codes : List Binary.Code} {data : List Data}
      (customs : CustomsForm c)
      (h₁ : SectionForm 1 [] (Vec FuncTypeForm) s₁ types)
      (h₂ : SectionForm 2 [] (Vec ImportForm) s₂ imports)
      (h₃ : SectionForm 3 [] (Vec U32) s₃ funcTypes)
      (h₄ : SectionForm 4 [] (Vec TableTypeForm) s₄ tables)
      (h₅ : SectionForm 5 [] (Vec LimitsForm) s₅ memories)
      (h₆ : SectionForm 6 [] (Vec GlobalForm) s₆ globals)
      (h₇ : SectionForm 7 [] (Vec ExportForm) s₇ exports)
      (h₈ : SectionForm 8 none StartForm s₈ start)
      (h₉ : SectionForm 9 [] (Vec ElemForm) s₉ elems)
      (h₁₀ : SectionForm 10 [] (Vec (Prefixed FuncCodeForm)) s₁₀ codes)
      (h₁₁ : SectionForm 11 [] (Vec DataForm) s₁₁ data)
      (lengths : funcTypes.length = codes.length) :
      ModuleForm
        (preamble ++ (c ++ (s₁ ++ (s₂ ++ (s₃ ++ (s₄ ++ (s₅ ++ (s₆ ++ (s₇ ++ (s₈ ++ (s₉ ++
          (s₁₀ ++ s₁₁))))))))))))
        { types, imports, funcs := zipFuncs funcTypes codes, tables, memories, globals, exports,
          start, elems, data }

end WasmPack.Grammar
