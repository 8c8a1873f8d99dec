/-
  WasmPack.Compile.Module

  The program of a module: the bodies of its functions, the operations of its
  memories and globals, its exports, the fragments that the bodies use, and a
  sequence that prepares the module when it is loaded.
-/
import WasmPack.Compile.Body
import WasmPack.Compile.Paging

namespace WasmPack.Compile

open Wasm

/-! ## Types -/

/-- Accept a value type; only 32-bit integers fit into a register. -/
def checkType (site : TypeSite) (type : ValueType) : Except CompileError Unit :=
  if type = .i32 then return () else throw (.unsupportedType type site)

/-- Accept the value types of a module, used or not. -/
def checkTypes (m : Module) : Except CompileError Unit := do
  m.types.zipIdx.forM fun (type, i) =>
    (type.params ++ type.results).forM (checkType (.signature i))
  m.funcs.zipIdx.forM fun (func, i) => func.locals.forM (checkType (.locals i))
  m.globals.zipIdx.forM fun (global, i) => checkType (.global i) global.type.valueType
  m.imports.forM fun i =>
    match i.desc with
    | .global type => checkType (.importedGlobal i.origin i.member) type.valueType
    | _ => return ()

/-! ## Functions -/

/-- The commands of a function; an imported one gets its arguments back onto the operand
    stack. -/
def funcCommands (spaces : IndexSpaces) : FuncEntry → Gen (List Command)
  | .defined type locals body => lowerFunction spaces type locals body
  | .imported type source => return forwardCall (.importFunc source) type.params.length

/-- The sequences of the functions. -/
def funcSequences (spaces : IndexSpaces) : Gen (List Sequence) :=
  spaces.funcs.toList.zipIdx.mapM fun (entry, i) => do
    return ⟨.func (UInt32.ofNat i), ← funcCommands spaces entry⟩

/-! ## Globals -/

/-- The globals of the module. -/
def globalsPath : Path := .own "globals"

/-- A global. -/
def globalPath (index : UInt32) : Path := globalsPath.index index.toInt32

/-- Take the top of the operand stack into a global. -/
def setGlobal (index : UInt32) : List Command := [.setFrom (globalPath index) top, .dropOperand]

/-- The operations that a global has. -/
def globalOps (type : GlobalType) : List GlobalOp := if type.isMutable then [.get, .set] else [.get]

/-- The sequences of a global. -/
def globalSequences (index : UInt32) : GlobalEntry → List Sequence
  | .defined .. =>
    [⟨.global index .get, [.appendFrom .stack (globalPath index)]⟩,
      ⟨.global index .set, setGlobal index⟩]
  | .imported type source =>
    (globalOps type).map fun op => ⟨.global index op, [.call (.importGlobal source op)]⟩

/-- Make room for a global, and give it its first value. -/
def initGlobal (spaces : IndexSpaces) (index : UInt32) (entry : GlobalEntry) :
    Gen (List Command) := do
  match entry with
  | .defined _ init =>
    return [.append globalsPath (.int 0)] ++ (← lowerConst spaces init) ++ setGlobal index
  | .imported .. => return [.append globalsPath (.int 0)]

/-- Make room for the globals, and give them their first values. -/
def initGlobals (spaces : IndexSpaces) : Gen (List Command) := do
  let parts ← spaces.globals.toList.zipIdx.mapM fun (entry, i) =>
    initGlobal spaces (UInt32.ofNat i) entry
  return parts.flatten

/-! ## Exports -/

/-- The exports of one kind, in their order. -/
def exportsOf (m : Module) (kind : ExportKind) : List Export := m.exports.filter (·.kind = kind)

/-- The number of parameters of the function at an index. -/
def paramCount (spaces : IndexSpaces) (index : UInt32) : Nat :=
  match spaces.funcs[index.toNat]? with
  | some entry => entry.type.params.length
  | none => 0

/-- The sequence of an exported function. -/
def exportFunc (spaces : IndexSpaces) (e : Export) : List Sequence :=
  [⟨.exportFunc e.name, callSequence (.func e.index) (paramCount spaces e.index)⟩]

/-- The sequences of an exported memory. -/
def exportMemory (e : Export) : List Sequence :=
  MemoryOp.exported.map fun op => ⟨.exportMemory e.name op, [.call (.memory e.index op)]⟩

/-- The sequences of an exported global. -/
def exportGlobal (spaces : IndexSpaces) (e : Export) : List Sequence :=
  let ops := match spaces.globals[e.index.toNat]? with
    | some entry => globalOps entry.type
    | none => [.get]
  ops.map fun op => ⟨.exportGlobal e.name op, [.call (.global e.index op)]⟩

/-- The sequences of the exports: functions, then memories, then globals. -/
def exportSequences (spaces : IndexSpaces) (m : Module) : List Sequence :=
  (exportsOf m .func).flatMap (exportFunc spaces) ++ (exportsOf m .memory).flatMap exportMemory ++
    (exportsOf m .global).flatMap (exportGlobal spaces)

/-! ## Data and start -/

/-- Write a byte at a distance from the address in `#address`. -/
def writeByte (memory : UInt32) (k : Nat) (byte : UInt8) : List Command :=
  byteAddress k ++ [.setScore .a (Int32.ofNat byte.toNat), .call (.memory memory .set)]

/-- Write a data segment. -/
def initData (spaces : IndexSpaces) (segment : Data) : Gen (List Command) := do
  discard (spaces.memoryAt segment.memory)
  let offset ← lowerConst spaces segment.offset
  return offset ++ [.load .address top, .dropOperand] ++
    segment.init.zipIdx.flatMap fun (byte, k) => writeByte segment.memory k byte

/-- Call the start function, which has no parameters. -/
def startCommands (spaces : IndexSpaces) : Option UInt32 → Except CompileError (List Command)
  | none => return []
  | some index => do
    discard (spaces.funcAt index)
    return callSequence (.func index) 0

/-! ## The whole module -/

/-- The sequence that stores the window, if any memory has pages. -/
def swapOutSequences (ns : String) (spaces : IndexSpaces) : List Sequence :=
  match swapOutAllCommands ns spaces.memories with
  | [] => []
  | commands => [⟨.swapOutAll, commands⟩]

/-- The sequences of the memories. -/
def allMemorySequences (ns : String) (spaces : IndexSpaces) : List Sequence :=
  spaces.memories.toList.zipIdx.flatMap fun (entry, i) => memorySequences ns (UInt32.ofNat i) entry

/-- Make room for the memories, and give them their first pages. -/
def initMemories (spaces : IndexSpaces) : List Command :=
  spaces.memories.toList.zipIdx.flatMap fun (entry, i) => initMemory (UInt32.ofNat i) entry

/-- The sequences of the globals. -/
def allGlobalSequences (spaces : IndexSpaces) : List Sequence :=
  spaces.globals.toList.zipIdx.flatMap fun (entry, i) => globalSequences (UInt32.ofNat i) entry

/-- The sequences of the fragments. -/
def fragmentSequences (pool : Pool) : List Sequence :=
  pool.toList.zipIdx.map fun (commands, i) => ⟨.fragment (UInt32.ofNat i), commands⟩

/-- The sequences of the functions, and the commands that prepare the module. -/
def lowerModule (spaces : IndexSpaces) (m : Module) : Gen (List Sequence × List Command) := do
  -- Fragments are numbered in this order: functions, first values of globals, offsets of data.
  let functions ← funcSequences spaces
  let globals ← initGlobals spaces
  let data ← m.data.mapM (initData spaces)
  let start ← startCommands spaces m.start
  return (functions,
    [.setData memoriesPath .emptyList, .setData globalsPath .emptyList] ++
      initMemories spaces ++ globals ++ data.flatten ++ start)

/-- The program of a module in a namespace.  Tables and element segments have no part in it. -/
def compileModule (ns : String) (m : Module) : Except CompileError Program := do
  -- What is declared comes before what refers to it, and both before any code.
  checkNamespace ns
  checkTypes m
  let spaces ← IndexSpaces.ofModule m
  let ((functions, init), pool) ← (lowerModule spaces m).run #[]
  let swapOut := swapOutSequences ns spaces
  return {
    ns
    sequences := functions ++ allMemorySequences ns spaces ++ swapOut ++
      allGlobalSequences spaces ++ exportSequences spaces m ++ fragmentSequences pool ++
      [⟨.init, init⟩]
    tags := swapOut.map fun s => (.swapOut, s.symbol) }

end WasmPack.Compile
