/-
  WasmPack.Compile.Call

  The two ways a function takes its arguments: a sequence that other modules
  call finds them on the operand stack, the body of a function finds them in a
  frame of its own.  Both leave the results on the operand stack.
-/
import WasmPack.Command.Basic

namespace WasmPack.Compile

/-- Copy the `j`-th of `params` arguments from the operand stack into the innermost frame. -/
def moveArgument (params j : Nat) : Command :=
  .appendFrom .frame (.operand (Int32.ofInt (j - params)))

/-- Move the arguments from the operand stack into a new frame, call, and drop the frame. -/
def callSequence (target : Symbol) (params : Nat) : List Command :=
  [.append .frames .emptyList] ++ (List.range params).map (moveArgument params) ++
    List.replicate params .dropOperand ++
    [.call target, .remove .frame, .setScore .brDepth noBranch]

/-- Copy the arguments from the innermost frame onto the operand stack, and call. -/
def forwardCall (target : Symbol) (params : Nat) : List Command :=
  (List.range params).map (fun j => .appendFrom .stack (.local (UInt32.ofNat j))) ++ [.call target]

end WasmPack.Compile
