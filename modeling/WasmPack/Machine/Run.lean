/-
  WasmPack.Machine.Run

  Running functions to their end.  The functions under way are kept on a list,
  the innermost first, each with the commands it still has to run.
-/
import Std.Data.HashMap
import WasmPack.Machine.Step

namespace WasmPack.Machine

/-- The commands of a function, and the namespace of the module they belong to. -/
structure Function where
  ns : String
  commands : List Command
deriving DecidableEq, Inhabited

/-- The code that is loaded: functions by name, and tags. -/
structure Code where
  functions : Std.HashMap String Function := ∅
  tags : TagTable := {}

namespace Code

/-- The function with a name. -/
def function (code : Code) (name : String) : Except Fault Function :=
  match code.functions[name]? with
  | some f => return f
  | none => throw (.unknownFunction name)

/-- The functions with the given names.  All are looked up before any of them runs, the last one
    first. -/
def functionsOf (code : Code) : List String → Except Fault (List Function)
  | [] => return []
  | name :: rest => do
    let rest ← code.functionsOf rest
    let f ← code.function name
    return f :: rest

end Code

/-- How a run ends: without a fault or with one, after how many commands, and in which state. -/
structure End where
  outcome : Except Fault Unit
  gas : Nat
  store : Store

/-- Run functions to their end.  Every command counts; when more than `limit` of them would be
    needed, the run ends before the next one. -/
def run (code : Code) (limit gas : Nat) (frames : List Function) (s : Store) : End :=
  match frames with
  | [] => ⟨.ok (), gas, s⟩
  -- A function that has come to its end leaves without being counted.
  | ⟨_, []⟩ :: outer => run code limit gas outer s
  | ⟨ns, c :: rest⟩ :: outer =>
    if limit ≤ gas then ⟨.error (.gasExhausted limit), gas + 1, s⟩
    else
      match step code.tags ns c s with
      | .error fault s => ⟨.error fault, gas + 1, s⟩
      | .ok callees s =>
        match code.functionsOf callees with
        | .error fault => ⟨.error fault, gas + 1, s⟩
        -- What was called runs before the rest of the caller.
        | .ok entered => run code limit (gas + 1) (entered ++ ⟨ns, rest⟩ :: outer) s
termination_by (limit - gas, frames.length)

end WasmPack.Machine
