/-
  WasmPack.Machine.Basic

  A machine that runs programs: what is loaded, the state it is in, and what its
  host can ask of it.
-/
import WasmPack.Machine.Run

namespace WasmPack

open Machine

/-- A machine. -/
structure Machine where
  code : Code := {}
  store : Store := {}
  /-- The number of commands that the latest run has come to. -/
  gas : Nat := 0
  /-- The number of commands that a run may come to. -/
  gasLimit : Nat

namespace Machine

/-! ## Loading -/

/-- Add a function; it takes the place of one with the same name. -/
def Code.addSequence (p : Program) (code : Code) (s : Sequence) : Code :=
  { code with functions := code.functions.insert (p.nameOf s) ⟨p.ns, s.commands⟩ }

/-- Add the sequences of a program, and what it gives to tags. -/
def Code.addProgram (code : Code) (p : Program) : Code :=
  let code := p.sequences.foldl (Code.addSequence p) code
  { code with tags := code.tags.addProgram p }

/-- Load a program. -/
def load (m : Machine) (p : Program) : Machine := { m with code := m.code.addProgram p }

/-- Whether a function with the name is loaded. -/
def hasFunction (m : Machine) (name : String) : Bool := m.code.functions.contains name

/-! ## State -/

/-- The score of a register, if it has one. -/
def score? (m : Machine) (r : Register) : Option Int32 := m.store.scores.get? r

/-- The storage with an identifier, if there is one. -/
def storage? (m : Machine) (id : String) : Option Nbt := Fields.get? id m.store.storages

/-- The operand stack as its path is named, whatever the module. -/
def stackName : String := Path.stack.render ""

/-- The number that an operand is. -/
def operandOf : Nbt → Except Fault Int32
  | .int n => return n
  | other => throw (.typeMismatch stackName (.foreignOperand other))

/-- The operand stack, from the bottom up. -/
def stack (s : Store) : Except Fault (List Int32) :=
  match s.lookup "" Path.stack with
  | some (.stored (.list operands)) => operands.toList.mapM operandOf
  | some _ => throw (.typeMismatch stackName .stackNotList)
  | none => throw (.missingPath stackName)

/-- Push a number onto the operand stack. -/
def push (n : Int32) : Exec Unit := append "" .stack (.int n)

/-- Keep the lowest numbers of the operand stack. -/
def truncateStack (size : Nat) : Exec Unit :=
  changeAt "" .stack fun segments root =>
    Nbt.modifyAt (fun
      | .list operands => (some (), .list (operands.take size))
      | node => (none, node)) segments root

/-! ## Runs -/

/-- A request to the machine: it may run functions, and may fail. -/
abbrev Request := EStateM Fault Machine

/-- Work on the store of the machine. -/
def onStore (work : Exec α) : Request α := fun m =>
  let ⟨code, store, gas, gasLimit⟩ := m
  match work store with
  | .ok a store => .ok a ⟨code, store, gas, gasLimit⟩
  | .error fault store => .error fault ⟨code, store, gas, gasLimit⟩

/-- Run a function to its end, counting commands from zero. -/
def runFunction (f : Function) : Request Unit := fun m =>
  let ⟨code, store, _, gasLimit⟩ := m
  match run code gasLimit 0 [f] store with
  | ⟨.ok (), gas, store⟩ => .ok () ⟨code, store, gas, gasLimit⟩
  | ⟨.error fault, gas, store⟩ => .error fault ⟨code, store, gas, gasLimit⟩

/-- Run the function with a name. -/
def call (name : String) : Request Unit := fun m =>
  match m.code.function name with
  | .ok f => runFunction f m
  | .error fault => .error fault m

/-- Run the members of the load tag. -/
def reload : Request Unit := runFunction ⟨"minecraft", [.callTag .load]⟩

/-- Push arguments, run a function, and pop what it leaves on the operand stack. -/
def invoke (name : String) (args : List Int32) : Request (List Int32) := do
  let base := (← onStore (inspect stack)).length
  onStore (args.forM push)
  call name
  let results := (← onStore (inspect stack)).drop base
  onStore (truncateStack base)
  return results

end Machine

end WasmPack
