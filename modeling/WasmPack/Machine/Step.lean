/-
  WasmPack.Machine.Step

  What one command does.  A command that calls does nothing by itself: it names
  the functions to run before the next command.
-/
import WasmPack.Machine.Arithmetic
import WasmPack.Machine.Store
import WasmPack.TagTable

namespace WasmPack.Machine

/-! ## Reports -/

/-- What a command reports to the stores in front of it. -/
structure Report where
  success : Bool
  result : Int32
deriving DecidableEq, Inhabited

namespace Report

/-- Success with a result. -/
def done (result : Int32) : Report := ⟨true, result⟩

/-- Failure, with zero for a result. -/
def failed : Report := ⟨false, 0⟩

/-- Success if something has changed. -/
def ofChange (changed : Bool) : Report := if changed then done 1 else failed

/-- The part of the report that a store takes. -/
def part (r : Report) : StoreKind → Int32
  | .result => r.result
  | .success => if r.success then 1 else 0

end Report

/-- Let a command report. -/
def reporting (work : Exec Unit) (result : Int32) : Exec Report := do
  work
  return .done result

/-! ## Commands without modifiers -/

/-- Combine the scores of two registers.  Only a swap changes the source. -/
def operate (target : Register) (op : ScoreOp) (source : Register) : Exec Report := do
  -- A source without a score is a fault; a target without one counts from zero.
  let rhs ← inspect (·.read source)
  let lhs ← inspect fun s => return s.readTarget target
  if op = .swap then setScore source lhs
  let value := applyOp op lhs rhs
  reporting (setScore target value) value

/-- Run a command that neither calls nor has modifiers. -/
def perform (ns : String) : Command → Exec Report
  | .setScore r n => reporting (setScore r n) n
  | .addScore r delta => do
    let n ← inspect fun s => return s.readTarget r + delta
    reporting (setScore r n) n
  | .operation target op source => operate target op source
  | .getScore r => do return .done (← inspect (·.read r))
  | .append path value => reporting (append ns path value) 1
  | .appendFrom path source => do
    let value ← require ns source
    reporting (append ns path value) 1
  | .setData path value => do return .ofChange (← write ns path value)
  | .setFrom path source => do
    let value ← require ns source
    return .ofChange (← write ns path value)
  | .remove path => reporting (remove ns path) 1
  | .getData path =>
    inspect fun s =>
      match s.lookup ns path with
      | some slot => return .done slot.measure
      | none => return .failed
  | .addObjective => return .done 1
  | _ => throw .storeOfCall

/-! ## Modifiers -/

/-- Whether a condition holds. -/
def holds (s : Store) : Condition → Except Fault Bool
  | .isIn r range => do return range.contains (← s.read r)
  | .compare lhs op rhs => do return op.holds (← s.read lhs) (← s.read rhs)

/-- A place that waits for a report. -/
abbrev Pending := List (StoreKind × StoreTarget)

/-- Go through modifiers up to a condition that does not hold: the stores on the way, and whether
    all conditions hold. -/
def gate (s : Store) : List Modifier → Except Fault (Pending × Bool)
  | [] => return ([], true)
  | .onlyIf c :: rest => do if ← holds s c then gate s rest else return ([], false)
  | .exceptIf c :: rest => do if ← holds s c then return ([], false) else gate s rest
  | .store kind target :: rest => do
    let (pending, passed) ← gate s rest
    return ((kind, target) :: pending, passed)

/-- A number as a value of a kind. -/
def numberAs (n : Int32) : NumericTag → Nbt
  | .int => .int n
  | .byte => .byte n.toInt8

/-- Store a number. -/
def storeNumber (ns : String) (n : Int32) : StoreTarget → Exec Unit
  | .score r => setScore r n
  | .storage path tag => discard (write ns path (numberAs n tag))

/-- Give every pending store its part of a report. -/
def deliver (ns : String) (report : Report) (pending : Pending) : Exec Unit :=
  pending.forM fun (kind, target) => storeNumber ns (report.part kind) target

/-! ## Steps -/

/-- All modifiers in front of a command, also where one `execute` runs another, and the command
    behind them. -/
def chain : Command → List Modifier × Option Command
  | .test ms => (ms, none)
  | .execute ms run =>
    let (inner, last) := chain run
    (ms ++ inner, last)
  | c => ([], some c)

/-- The members of a tag; a tag must have some. -/
def tagMembers (tags : TagTable) (tag : Tag) : Except Fault (List String) :=
  match tags.members tag with
  | [] => throw (.unknownFunction ("#" ++ tag.name))
  | names => return names

/-- Run a command whose conditions hold, and name the functions that it calls.  A call has no
    report, so nothing may wait for one. -/
def finish (tags : TagTable) (ns : String) (pending : Pending) :
    Option Command → Exec (List String)
  -- A test whose conditions hold has succeeded.
  | none => do
    deliver ns (.done 1) pending
    return []
  | some (.call symbol) =>
    if pending.isEmpty then return [symbol.qualifiedName ns] else throw .storeOfCall
  | some (.callTag tag) =>
    if pending.isEmpty then inspect fun _ => tagMembers tags tag else throw .storeOfCall
  | some c => do
    deliver ns (← perform ns c) pending
    return []

/-- Run a command of a module with the given namespace, and name the functions that it calls.
    Where a condition does not hold, nothing happens; but a test still reports its failure. -/
def step (tags : TagTable) (ns : String) (c : Command) : Exec (List String) := do
  let (modifiers, last) := chain c
  let (pending, passed) ← inspect fun s => gate s modifiers
  if passed then finish tags ns pending last
  else
    if last.isNone then deliver ns .failed pending
    return []

end WasmPack.Machine
