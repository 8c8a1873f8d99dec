/-
  WasmPack.Compile.Body

  Structured control flow as command sequences.

  There are no jumps.  A branch under way is a depth in `#br_depth`: that of the
  construct whose label it targets, counted from the function body, which has
  depth 0.  A sequence runs to its end, so what follows an instruction that may
  branch moves into a fragment, which is called only while no branch is under
  way.  A construct whose own label is a target ends with a command that clears
  `#br_depth`.

  The body of a block stands in place.  The body of a loop that branches back is
  a fragment that calls itself.  The arms of an `if` are single commands, guarded
  by the condition.
-/
import WasmPack.Compile.Access
import WasmPack.Compile.Call
import WasmPack.Compile.Fragment
import WasmPack.Compile.IndexSpaces

namespace WasmPack.Compile

open Wasm

/-! ## Heights and labels -/

/-- A construct that a branch can target. -/
structure Label where
  /-- The height of the operand stack below the parameters of the construct. -/
  height : UInt32
  /-- The number of values that a branch brings. -/
  arity : UInt32
deriving DecidableEq, Inhabited

/-- What an instruction refers to by index: the module, and the number of locals. -/
structure Scope where
  spaces : IndexSpaces
  locals : Nat := 0
deriving Inhabited

/-- The depth that stands for no branch at all; every real depth is less. -/
def never : Nat := noBranch.toNatClampNeg

/-- The height below the topmost values. -/
def below (mnemonic : String) (height count : UInt32) : Except CompileError UInt32 :=
  if count ≤ height then return height - count else throw (.stackUnderflow mnemonic)

/-- The height above some more values.  Heights have 32 bits. -/
def above (height count : UInt32) : Except CompileError UInt32 :=
  if height.toNat + count.toNat < UInt32.size then return height + count else throw .overflow

/-- The construct that a label means, with its depth.  The labels are listed from the function
    body inward. -/
def labelAt (labels : List Label) (depth : Nat) (label : UInt32) :
    Except CompileError (Nat × Label) :=
  if label.toNat ≤ depth then
    match labels[depth - label.toNat]? with
    | some l => return (depth - label.toNat, l)
    | none => throw (.invalidLabel label depth)
  else throw (.invalidLabel label depth)

/-- Drop the values between the height of a label and those a branch to it brings, and set off
    the branch. -/
def branch (mnemonic : String) (height : UInt32) (target : Nat) (l : Label) :
    Except CompileError (List Command) := do
  let excess ← below mnemonic height (← above l.height l.arity)
  return List.replicate excess.toNat (.remove (.operand (-l.arity.toInt32 - 1))) ++
    [.setScore .brDepth (Int32.ofNat target)]

/-! ## Flow -/

/-- How things go on behind an instruction. -/
inductive Flow where
  /-- With the next instruction, at a height. -/
  | next (height : UInt32)
  /-- With the next instruction behind a guard: a branch down to `target` may be under way. -/
  | guarded (height : UInt32) (target : Nat) (guard : Modifier)
  /-- Not at all: a branch down to `target` is under way. -/
  | stop (target : Nat)
deriving DecidableEq, Inhabited

/-- The commands of an instruction, and how things go on behind them. -/
structure Step where
  commands : List Command
  flow : Flow
deriving Inhabited

/-- The commands of a list of instructions, and the least depth that a branch out of them may
    target, or `never`. -/
structure Block where
  commands : List Command
  target : Nat
deriving Inhabited

/-- How things go on behind a construct at `depth + 1`. -/
def escape (depth target : Nat) (height : UInt32) : Flow :=
  if target ≤ depth then .guarded height target .ifNoBranch else .next height

/-- The end of a branch to a depth. -/
def catchBranch (depth : Nat) : Command :=
  (Command.setScore .brDepth noBranch).ifIn .brDepth (.exact (Int32.ofNat depth))

/-- A construct at `depth + 1` whose code ends where branches to its label arrive. -/
def closed (depth : Nat) (code : Block) (height : UInt32) : Step :=
  ⟨code.commands ++ if code.target ≤ depth + 1 then [catchBranch (depth + 1)] else [],
    escape depth code.target height⟩

/-- Take the top of the operand stack into `#a`. -/
def popA : List Command := [.load .a top, .dropOperand]

/-! ## Instructions without branches -/

/-- Accept the index of a local. -/
def checkLocal (scope : Scope) (index : UInt32) : Except CompileError Unit :=
  if index.toNat < scope.locals then return () else throw (.invalidIndex .local index)

/-- The commands of an instruction behind which the next one always follows, and the height
    there. -/
def lowerStraight (scope : Scope) (height : UInt32) (i : Instr) :
    Except CompileError (List Command × UInt32) := do
  match i with
  | .nop => return ([], height)
  | .call func =>
    let arity := arityOf (← scope.spaces.funcAt func).type
    let height ← below i.mnemonic height arity.params
    return (callSequence (.func func) arity.params.toNat, ← above height arity.results)
  | .drop => return ([.dropOperand], ← below i.mnemonic height 1)
  | .select =>
    let height ← below i.mnemonic height 3
    return (popA ++
      [(Command.setFrom (.operand (-2)) top).ifIn .a (.exact 0), .dropOperand], ← above height 1)
  | .localGet index =>
    checkLocal scope index
    return ([.appendFrom .stack (.local index)], ← above height 1)
  | .localSet index =>
    checkLocal scope index
    return ([.setFrom (.local index) top, .dropOperand], ← below i.mnemonic height 1)
  | .localTee index =>
    checkLocal scope index
    discard (below i.mnemonic height 1)
    return ([.setFrom (.local index) top], height)
  | .globalGet index =>
    discard (scope.spaces.globalAt index)
    return ([.call (.global index .get)], ← above height 1)
  | .globalSet index =>
    discard (scope.spaces.globalAt index)
    return ([.call (.global index .set)], ← below i.mnemonic height 1)
  | .load op arg =>
    discard (scope.spaces.memoryAt 0)
    let height ← below i.mnemonic height 1
    return (← lowerLoad op arg, ← above height 1)
  | .store op arg =>
    discard (scope.spaces.memoryAt 0)
    let height ← below i.mnemonic height 2
    return (← lowerStore op arg, height)
  | .memorySize memory =>
    discard (scope.spaces.memoryAt memory)
    return ([.call (.memory memory .size)], ← above height 1)
  | .memoryGrow memory =>
    discard (scope.spaces.memoryAt memory)
    let height ← below i.mnemonic height 1
    return ([.call (.memory memory .grow)], ← above height 1)
  | .i32Const value => return ([.append .stack (.int value)], ← above height 1)
  | .numeric op =>
    let lowered ← lowerNumeric op
    let height ← below i.mnemonic height lowered.pops
    return (lowered.commands, ← above height lowered.pushes)
  | _ => throw (.unsupportedInstruction i.mnemonic)

/-! ## Branches -/

/-- Branch to a label, whatever holds. -/
def lowerBr (mnemonic : String) (depth : Nat) (labels : List Label) (height label : UInt32) :
    Except CompileError Step := do
  let (target, l) ← labelAt labels depth label
  return ⟨← branch mnemonic height target l, .stop target⟩

/-- Branch to a label under a condition on `#a`, with the depth of the construct it means. -/
def branchIf (mnemonic : String) (depth : Nat) (labels : List Label) (height label : UInt32)
    (condition : List Modifier) : Gen (List Command × Nat) := do
  let (target, l) ← labelAt labels depth label
  let jump ← asOne (← branch mnemonic height target l)
  return (jump.toList.map (condition.foldr fun m c => c.guarded m), target)

/-- Branch to a label unless the top of the operand stack is zero. -/
def lowerBrIf (mnemonic : String) (depth : Nat) (labels : List Label) (height label : UInt32) :
    Gen Step := do
  -- A label that means nothing is refused before a condition that is missing.
  discard (labelAt labels depth label)
  let height ← below mnemonic height 1
  let (jump, target) ← branchIf mnemonic depth labels height label [.unlessIn .a (.exact 0)]
  return ⟨popA ++ jump, .guarded height target (.ifIn .a (.exact 0))⟩

/-- The branches of a table, from the entry numbered `i` on, with the least depth they target. -/
def branchCases (mnemonic : String) (depth : Nat) (labels : List Label) (height : UInt32) :
    Nat → List UInt32 → Gen (List Command × Nat)
  | _, [] => return ([], never)
  | i, label :: rest => do
    let (jump, target) ←
      branchIf mnemonic depth labels height label [.ifIn .a (.exact (Int32.ofNat i))]
    let (jumps, least) ← branchCases mnemonic depth labels height (i + 1) rest
    return (jump ++ jumps, min target least)

/-- Branch to the label that the top of the operand stack selects from a table. -/
def lowerBrTable (mnemonic : String) (depth : Nat) (labels : List Label) (height : UInt32)
    (table : List UInt32) (default : UInt32) : Gen Step := do
  let height ← below mnemonic height 1
  let (cases, least) ← branchCases mnemonic depth labels height 0 table
  let outside : List Modifier :=
    if table.isEmpty then []
    else [.unlessIn .a (.between 0 (Int32.ofNat (table.length - 1)))]
  let (jump, target) ← branchIf mnemonic depth labels height default outside
  return ⟨popA ++ cases ++ jump, .stop (min least target)⟩

/-! ## Constructs -/

/-- A loop at `depth + 1`.  If its code branches back, it is a fragment that calls itself. -/
def lowerLoop (depth : Nat) (code : Block) (height : UInt32) : Gen Step := do
  if code.target ≤ depth + 1 then
    let id ← reserve
    -- Every turn begins with no branch under way.
    fill id ([.setScore .brDepth noBranch] ++ code.commands ++
      [(callFragment id).ifIn .brDepth (.exact (Int32.ofNat (depth + 1)))])
    return ⟨[callFragment id], escape depth code.target height⟩
  else return ⟨code.commands, escape depth code.target height⟩

/-- The choice between two arms.  If there is something to do in the second arm, the condition
    stays in a storage while an arm runs, for the arms use `#a`. -/
def choose (consequent alternative : Option Command) : List Command :=
  match alternative with
  | none => popA ++ consequent.toList.map (·.unlessIn .a (.exact 0))
  | some alternative =>
    let condition := Path.conditions.index (-1)
    [.appendFrom .conditions top, .dropOperand] ++
      (consequent.toList.flatMap fun c => [.load .a condition, c.unlessIn .a (.exact 0)]) ++
      [.load .a condition, alternative.ifIn .a (.exact 0), .remove condition]

/-- Accept a depth. -/
def checkNesting (depth : Nat) : Except CompileError Unit :=
  if depth ≤ maxNesting then return () else throw (.limitExceeded .nesting)

mutual

/-- The commands of an instruction at a depth, with the labels around it, and at a height. -/
def lowerInstr (scope : Scope) (depth : Nat) (labels : List Label) (height : UInt32) :
    Instr → Gen Step
  | .unreachable => return ⟨[.setScore .brDepth 0], .stop 0⟩
  | .block type body => do
    let arity ← scope.spaces.blockArity type
    let base ← below "block" height arity.params
    checkNesting (depth + 1)
    let code ← lowerList scope (depth + 1) (labels ++ [⟨base, arity.results⟩]) height body
    return closed depth code (← above base arity.results)
  -- A branch to a loop goes to its beginning, so it brings the parameters.
  | .loop type body => do
    let arity ← scope.spaces.blockArity type
    let base ← below "loop" height arity.params
    checkNesting (depth + 1)
    let code ← lowerList scope (depth + 1) (labels ++ [⟨base, arity.params⟩]) height body
    lowerLoop depth code (← above base arity.results)
  | .ifElse type consequent alternative => do
    let arity ← scope.spaces.blockArity type
    let height ← below "if" height 1
    let base ← below "if" height arity.params
    checkNesting (depth + 1)
    let inner := labels ++ [⟨base, arity.results⟩]
    let first ← lowerList scope (depth + 1) inner height consequent
    let second ← lowerList scope (depth + 1) inner height alternative
    -- Both arms have their fragments before either becomes one itself.
    let commands := choose (← asOne first.commands) (← asOne second.commands)
    return closed depth ⟨commands, min first.target second.target⟩
      (← above base arity.results)
  | .br label => lowerBr "br" depth labels height label
  | .brIf label => lowerBrIf "br_if" depth labels height label
  | .brTable table default => lowerBrTable "br_table" depth labels height table default
  | .ret => lowerBr "return" depth labels height (UInt32.ofNat depth)
  | i => do
    let (commands, height) ← lowerStraight scope height i
    return ⟨commands, .next height⟩
termination_by structural i => i

/-- The commands of a list of instructions. -/
def lowerList (scope : Scope) (depth : Nat) (labels : List Label) (height : UInt32) :
    List Instr → Gen Block
  | [] => return ⟨[], never⟩
  | i :: rest => do
    let step ← lowerInstr scope depth labels height i
    match step.flow with
    | .next height =>
      let code ← lowerList scope depth labels height rest
      return ⟨step.commands ++ code.commands, code.target⟩
    | .guarded height target guard =>
      if rest.isEmpty then return ⟨step.commands, target⟩
      else
        -- The number is taken first, so a fragment comes before those inside it.
        let id ← reserve
        let code ← lowerList scope depth labels height rest
        fill id code.commands
        return ⟨step.commands ++ [(callFragment id).guarded guard], min target code.target⟩
    -- What follows is never reached, so it is not looked at.
    | .stop target => return ⟨step.commands, target⟩
termination_by structural body => body

end

/-! ## Functions and constants -/

/-- The commands of a list of instructions at an accepted depth. -/
def lowerBlock (scope : Scope) (depth : Nat) (labels : List Label) (height : UInt32)
    (body : List Instr) : Gen Block := do
  checkNesting depth
  lowerList scope depth labels height body

/-- The commands of a function whose frame holds the arguments: the declared locals start as
    zero. -/
def lowerFunction (spaces : IndexSpaces) (type : FuncType) (locals : List ValueType)
    (body : Expr) : Gen (List Command) := do
  let scope : Scope := ⟨spaces, type.params.length + locals.length⟩
  let code ← lowerBlock scope 0 [⟨0, (arityOf type).results⟩] 0 body
  return locals.map (fun _ => .append .frame (.int 0)) ++ code.commands

/-- The commands of a constant expression, which leave its value on the operand stack. -/
def lowerConst (spaces : IndexSpaces) (init : Expr) : Gen (List Command) := do
  let code ← lowerBlock ⟨spaces, 0⟩ 0 [⟨0, 1⟩] 0 init
  return code.commands

end WasmPack.Compile
