/-
  WasmPack.Library.Basic

  The library: the routines that all modules share, and the trees that select a
  byte of the window.
-/
import WasmPack.Compile.Paging
import WasmPack.Library.Bits
import WasmPack.Library.Division

namespace WasmPack.Library

/-! ## Preparation -/

/-- The lists that compiled code works on. -/
def workLists : List Path := [.stack, .frames, .conditions]

/-- Prepare the registers and storages that all modules share. -/
def loadCommands : List Command :=
  [.addObjective] ++ Register.seeded.map (fun n => .setScore (.const n) n) ++
    [.setScore .brDepth noBranch] ++ workLists.map (fun path => .setData path .emptyList) ++
    [.setData Compile.scratch (.text ""),
      .setData Compile.window Compile.emptyWindow,
      .setData Compile.zeroPagePath Compile.zeroPage]

/-! ## Bytes of the window -/

/-- The byte of the window at an offset. -/
def windowByte (offset : Nat) : Path := Compile.windowData.index (Int32.ofNat offset)

/-- The offsets in a page. -/
def pageOffsets : Span := ⟨0, pageSize⟩

/-- The tree that reads the byte at the offset in `#index` into `#a`. -/
def byteGetTree : DispatchTree := ⟨.byteGet, .index, 16⟩

/-- The tree that writes `#a` to the byte at the offset in `#index`. -/
def byteSetTree : DispatchTree := ⟨.byteSet, .index, 16⟩

/-- The sequences of both trees. -/
def treeSequences : List Sequence :=
  byteGetTree.sequences (fun i => .load .a (windowByte i)) pageOffsets ++
    byteSetTree.sequences (fun i => .saveAs (windowByte i) .byte .a) pageOffsets

/-! ## Routines -/

/-- The commands of a routine. -/
def routineCommands : Routine → List Command
  | .load => loadCommands
  | .byteGet => [.call (byteGetTree.symbol pageOffsets)]
  | .byteSet => [.call (byteSetTree.symbol pageOffsets)]
  | .divS => divS
  | .remS => remS
  | .divU => divU
  | .remU => remU
  | .udivmod => udivmod
  | .udivmodLarge => udivmodLarge
  | .udivmodSmall => udivmodSmall
  | .udivmodPos => udivmodPos
  | .udivmodNeg => udivmodNeg
  | .shl => shift .shlLoop
  | .shlLoop => shiftLoop .shlLoop (.operation .a .mul (.const 2))
  | .shrS => shift .shrSLoop
  | .shrSLoop => shiftLoop .shrSLoop (.operation .a .div (.const 2))
  | .shrU => shift .shrUFirst
  | .shrUFirst => shrUFirst
  | .rotl => rotl
  | .rotr => rotr
  | .and => bitwise .andLoop
  | .andLoop => bitwiseLoop .andLoop (.exact 2)
  | .or => bitwise .orLoop
  | .orLoop => bitwiseLoop .orLoop (.atLeast 1)
  | .xor => bitwise .xorLoop
  | .xorLoop => bitwiseLoop .xorLoop (.exact 1)
  | .clz => clz
  | .clzLoop => clzLoop
  | .ctz => ctz
  | .ctzLoop => ctzLoop
  | .popcnt => popcnt
  | .popcntLoop => popcntLoop

/-- The routines in the order in which the library lists them. -/
def listing : List Routine :=
  [.load, .divS, .remS, .udivmod, .udivmodLarge, .udivmodSmall, .udivmodPos, .udivmodNeg, .divU,
    .remU, .shl, .shlLoop, .shrS, .shrSLoop, .shrU, .shrUFirst, .rotl, .rotr, .and, .andLoop,
    .or, .orLoop, .xor, .xorLoop, .clz, .clzLoop, .ctz, .ctzLoop, .popcnt, .popcntLoop,
    .byteGet, .byteSet]

/-- The sequences of the routines. -/
def routineSequences : List Sequence := listing.map fun r => ⟨.routine r, routineCommands r⟩

/-- The library as a program. -/
def program : Program :=
  { ns := sharedNamespace, sequences := routineSequences ++ treeSequences }

end WasmPack.Library
