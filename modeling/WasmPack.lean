import WasmPack.Main
import WasmPack.Proofs.Access.Parts
import WasmPack.Proofs.Access.Requests
import WasmPack.Proofs.Closed.Module
import WasmPack.Proofs.Command.Unambiguous
import WasmPack.Proofs.Evaluation.Modules
import WasmPack.Proofs.Execution.Limit
import WasmPack.Proofs.Execution.Lookup
import WasmPack.Proofs.Execution.Recursion
import WasmPack.Proofs.Forest.Module
import WasmPack.Proofs.Nbt.Lens
import WasmPack.Proofs.Nbt.Stacks
import WasmPack.Proofs.Nesting.Limit
import WasmPack.Proofs.Operands.Drops
import WasmPack.Proofs.Operands.Functions
import WasmPack.Proofs.Operators.Effects
import WasmPack.Proofs.Pack.Inside
import WasmPack.Proofs.Pack.Lines
import WasmPack.Proofs.Pack.Places
import WasmPack.Proofs.Paging.Isolation
import WasmPack.Proofs.Paging.Preparation
import WasmPack.Proofs.Preparation.Reload
import WasmPack.Proofs.Reading.Integers
import WasmPack.Proofs.Reading.Module
import WasmPack.Proofs.Reading.Sessions
import WasmPack.Proofs.Sizes.Parts
import WasmPack.Proofs.State.Guards
import WasmPack.Proofs.Validation.Exact
import WasmPack.Proofs.Validation.Module
