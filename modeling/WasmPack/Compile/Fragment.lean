/-
  WasmPack.Compile.Fragment

  The pool of fragments: pieces of code that are sequences of their own because
  a guarded call must be able to skip or repeat them.  The number of a fragment
  is fixed before its commands are known, so a loop can call itself.
-/
import WasmPack.Command.Basic
import WasmPack.Compile.Error

namespace WasmPack.Compile

/-- The commands of every fragment, in the order of their numbers. -/
abbrev Pool := Array (List Command)

/-- Code generation: fragments may be added, and the module may be refused. -/
abbrev Gen := StateT Pool (Except CompileError)

/-- The call of a fragment. -/
def callFragment (id : Nat) : Command := .call (.fragment (UInt32.ofNat id))

/-- Take the next number for a fragment whose commands come later. -/
def reserve : Gen Nat := fun pool => return (pool.size, pool.push [])

/-- Give a fragment its commands. -/
def fill (id : Nat) (commands : List Command) : Gen Unit :=
  fun pool => return ((), pool.setIfInBounds id commands)

/-- Commands as at most one command: a call of a new fragment if there is more than one. -/
def asOne : List Command → Gen (Option Command)
  | [] => return none
  | [command] => return some command
  | commands => do
    let id ← reserve
    fill id commands
    return some (callFragment id)

end WasmPack.Compile
