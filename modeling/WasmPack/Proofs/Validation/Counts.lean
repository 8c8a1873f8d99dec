/-
  WasmPack.Proofs.Validation.Counts

  Validation of modules by value counts: the algorithm of the WebAssembly
  standard with the number of values on the operand stack in place of their
  types.

  Behind an unconditional transfer of control the operand stack has as many
  values as are asked for, so its height means something in live code only.
  Types, mutability, alignment, and the restriction of initial values to
  constant instructions are not looked at: more is accepted here than by the
  standard.
-/
import WasmPack.Wasm.Module

namespace WasmPack.Wasm

/-! ## Numbers of values -/

/-- How many values are taken from the operand stack, and how many are left on it. -/
structure Counts where
  params : Nat
  results : Nat
deriving DecidableEq

/-- The numbers of values in a function type. -/
def FuncType.counts (type : FuncType) : Counts := ⟨type.params.length, type.results.length⟩

/-- The number of operands of a numeric operator, which leaves one result. -/
def NumericOp.operands : NumericOp → Nat
  | .intRel .. | .floatRel .. | .intBinary .. | .floatBinary .. => 2
  | _ => 1

/-- What indices refer to: types, functions by their types, and how many memories, globals and
    locals there are. -/
structure Context where
  types : List FuncType
  funcs : List FuncType
  memories : Nat
  globals : Nat
  locals : Nat

/-- Something that has an index. -/
def indexed (index : UInt32) (count : Nat) (counts : Counts) : Option Counts :=
  if index.toNat < count then some counts else none

namespace Context

/-- The numbers of values of a construct. -/
def blockCounts? (c : Context) : BlockType → Option Counts
  | .empty => some ⟨0, 0⟩
  | .value _ => some ⟨0, 1⟩
  | .func index => c.types[index.toNat]?.map FuncType.counts

/-- The numbers of values of an instruction that neither branches nor encloses others. -/
def counts? (c : Context) : Instr → Option Counts
  | .nop => some ⟨0, 0⟩
  | .call func => c.funcs[func.toNat]?.map FuncType.counts
  | .callIndirect type _ => c.types[type.toNat]?.map fun t => ⟨t.counts.params + 1, t.counts.results⟩
  | .drop => some ⟨1, 0⟩
  | .select => some ⟨3, 1⟩
  | .localGet index => indexed index c.locals ⟨0, 1⟩
  | .localSet index => indexed index c.locals ⟨1, 0⟩
  | .localTee index => indexed index c.locals ⟨1, 1⟩
  | .globalGet index => indexed index c.globals ⟨0, 1⟩
  | .globalSet index => indexed index c.globals ⟨1, 0⟩
  | .load _ _ => indexed 0 c.memories ⟨1, 1⟩
  | .store _ _ => indexed 0 c.memories ⟨2, 0⟩
  | .memorySize memory => indexed memory c.memories ⟨0, 1⟩
  | .memoryGrow memory => indexed memory c.memories ⟨1, 1⟩
  | .i32Const _ | .i64Const _ | .f32Const _ | .f64Const _ => some ⟨0, 1⟩
  | .numeric op => some ⟨op.operands, 1⟩
  | .unreachable | .block .. | .loop .. | .ifElse .. | .br _ | .brIf _ | .brTable .. | .ret => none

end Context

/-! ## The operand stack -/

/-- The operand stack as validation sees it. -/
structure Operands where
  height : Nat
  /-- The code is not reached. -/
  dead : Bool := false
deriving DecidableEq

namespace Operands

/-- Take values that the construct has put on the operand stack itself; its lowest height is
    `base`. -/
def pop (base : Nat) (s : Operands) (count : Nat) : Option Operands :=
  if base + count ≤ s.height then some { s with height := s.height - count }
  else if s.dead then some { s with height := base } else none

/-- The height, if the code is reached. -/
def live? (s : Operands) : Option Nat := if s.dead then none else some s.height

/-- Put values on the operand stack. -/
def push (s : Operands) (count : Nat) : Operands := { s with height := s.height + count }

/-- Take values and leave others. -/
def apply (base : Nat) (s : Operands) (counts : Counts) : Option Operands :=
  (s.pop base counts.params).map (·.push counts.results)

/-- A construct may end so: with its results, and nothing else of its own. -/
def endsWith (base : Nat) (s : Operands) (results : Nat) : Bool :=
  match s.pop base results with
  | some s => s.height = base
  | none => false

end Operands

/-- What is left when a branch of some values has been taken. -/
def leave (base : Nat) (s : Operands) (count : Nat) : Option Operands :=
  (s.pop base count).map fun _ => ⟨base, true⟩

/-! ## Instructions -/

mutual

/-- The operand stack behind an instruction.  The labels around it are listed from the inside
    outward, each by the number of values that a branch to it brings. -/
def validateInstr (c : Context) (labels : List Nat) (base : Nat) (s : Operands) :
    Instr → Option Operands
  | .unreachable => some ⟨base, true⟩
  | .block type body => do
    let counts ← c.blockCounts? type
    let s ← s.pop base counts.params
    let inner ← validateList c (counts.results :: labels) s.height ⟨s.height + counts.params, false⟩
      body
    guard (inner.endsWith s.height counts.results)
    return s.push counts.results
  | .loop type body => do
    let counts ← c.blockCounts? type
    let s ← s.pop base counts.params
    let inner ← validateList c (counts.params :: labels) s.height ⟨s.height + counts.params, false⟩
      body
    guard (inner.endsWith s.height counts.results)
    return s.push counts.results
  | .ifElse type consequent alternative => do
    let counts ← c.blockCounts? type
    let s ← s.pop base 1
    let s ← s.pop base counts.params
    let first ← validateList c (counts.results :: labels) s.height
      ⟨s.height + counts.params, false⟩ consequent
    guard (first.endsWith s.height counts.results)
    let second ← validateList c (counts.results :: labels) s.height
      ⟨s.height + counts.params, false⟩ alternative
    guard (second.endsWith s.height counts.results)
    return s.push counts.results
  | .br label => do leave base s (← labels[label.toNat]?)
  | .brIf label => do
    let s ← s.pop base 1
    let arity ← labels[label.toNat]?
    s.apply base ⟨arity, arity⟩
  | .brTable table default => do
    let s ← s.pop base 1
    let arity ← labels[default.toNat]?
    guard (table.all fun label => labels[label.toNat]? = some arity)
    leave base s arity
  | .ret => do leave base s (← labels.getLast?)
  | i => do s.apply base (← c.counts? i)
termination_by structural i => i

/-- The operand stack behind a list of instructions. -/
def validateList (c : Context) (labels : List Nat) (base : Nat) (s : Operands) :
    List Instr → Option Operands
  | [] => some s
  | i :: rest => do validateList c labels base (← validateInstr c labels base s i) rest
termination_by structural body => body

end

/-- A list of instructions is the code of a construct. -/
def Closes (c : Context) (labels : List Nat) (base height results : Nat) (body : List Instr) :
    Prop :=
  ∃ s, validateList c labels base ⟨height, false⟩ body = some s ∧ s.endsWith base results = true

/-! ## Heights of live code -/

/-- One move on the way to a place in a body. -/
inductive Turn where
  /-- Past an instruction. -/
  | behind
  /-- Into a construct; of two arms, into the first. -/
  | inside
  /-- Into the second arm. -/
  | otherwise
deriving DecidableEq

/-- A place in a body: in front of an instruction, or at the end of a list of them. -/
abbrev Position := List Turn

/-- The height at a place, if it is one in live code; the list begins at `height`. -/
def heightAt? (c : Context) :
    (labels : List Nat) → (base height : Nat) → List Instr → Position → Option Nat
  | _, _, height, _, [] => some height
  | labels, base, height, i :: rest, .behind :: pos => do
    let s ← validateInstr c labels base ⟨height, false⟩ i
    heightAt? c labels base (← s.live?) rest pos
  | labels, base, height, .block type body :: _, .inside :: pos => do
    let counts ← c.blockCounts? type
    let s ← Operands.pop base ⟨height, false⟩ counts.params
    heightAt? c (counts.results :: labels) s.height (s.height + counts.params) body pos
  | labels, base, height, .loop type body :: _, .inside :: pos => do
    let counts ← c.blockCounts? type
    let s ← Operands.pop base ⟨height, false⟩ counts.params
    heightAt? c (counts.params :: labels) s.height (s.height + counts.params) body pos
  | labels, base, height, .ifElse type consequent alternative :: _, turn :: pos => do
    let counts ← c.blockCounts? type
    let s ← Operands.pop base ⟨height, false⟩ 1
    let s ← s.pop base counts.params
    heightAt? c (counts.results :: labels) s.height (s.height + counts.params)
      (if turn = .inside then consequent else alternative) pos
  | _, _, _, _, _ => none
termination_by structural _ _ _ _ pos => pos

/-! ## Modules -/

/-- A list of instructions that is validated on its own. -/
structure Body where
  locals : Nat
  results : Nat
  code : Expr

namespace Module

/-- What the indices of a module refer to. -/
def context (m : Module) (locals : Nat) : Context where
  types := m.types
  funcs := m.imports.filterMap (fun i => match i.desc with
      | .func index => m.types[index.toNat]?
      | _ => none) ++
    m.funcs.filterMap fun f => m.types[f.typeIndex.toNat]?
  memories := m.imports.countP (fun i => i.desc matches .memory _) + m.memories.length
  globals := m.imports.countP (fun i => i.desc matches .global _) + m.globals.length
  locals := locals

/-- The bodies of a module: those of its functions, the first values of its globals, and the
    offsets of its data segments. -/
def bodies (m : Module) : List Body :=
  m.funcs.filterMap (fun f => m.types[f.typeIndex.toNat]?.map fun type =>
      ⟨type.params.length + f.locals.length, type.results.length, f.body⟩) ++
    m.globals.map (fun g => ⟨0, 1, g.init⟩) ++ m.data.map fun d => ⟨0, 1, d.offset⟩

end Module

namespace Body

/-- The body leaves its results on the operand stack. -/
def Valid (m : Module) (b : Body) : Prop :=
  Closes (m.context b.locals) [b.results] 0 0 b.results b.code

/-- The height at a place in the body, if it is one in live code. -/
def heightAt? (m : Module) (b : Body) (pos : Position) : Option Nat :=
  Wasm.heightAt? (m.context b.locals) [b.results] 0 0 b.code pos

end Body

/-- There is an entry of the kind at an index; tables are not looked at. -/
def Module.Has (m : Module) (index : UInt32) : ExportKind → Prop
  | .func => index.toNat < (m.context 0).funcs.length
  | .memory => index.toNat < (m.context 0).memories
  | .global => index.toNat < (m.context 0).globals
  | .table => True

/-- A module that is valid by value counts. -/
structure Module.Valid (m : Module) : Prop where
  imports : ∀ i ∈ m.imports, ∀ index, i.desc = .func index → index.toNat < m.types.length
  funcs : ∀ f ∈ m.funcs, f.typeIndex.toNat < m.types.length
  bodies : ∀ b ∈ m.bodies, b.Valid m
  data : ∀ d ∈ m.data, m.Has d.memory .memory
  exports : ∀ e ∈ m.exports, m.Has e.index e.kind
  start : ∀ index, m.start = some index → m.Has index .func

end WasmPack.Wasm
