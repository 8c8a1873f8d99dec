/-
  WasmPack.Compile.Paging

  Memories as command sequences.

  A memory of a module is a list of pages in the module's own storage.  Bytes
  are read and written in a window in the shared storage, which holds one page
  at a time, with the memory it belongs to and its number.  When another page
  is wanted, the owner of the window stores it, through a tag, and the wanted
  page is loaded.
-/
import WasmPack.Compile.IndexSpaces
import WasmPack.Dispatch

namespace WasmPack.Compile

/-! ## Where pages lie -/

/-- A page of zeros. -/
def zeroPage : Nbt := .bytes (Array.replicate pageSize 0)

/-- The path of a page of zeros. -/
def zeroPagePath : Path := .shared "zero_page"

/-- The window. -/
def window : Path := .shared "mem"

/-- The memory that the window belongs to. -/
def windowId : Path := window.key "id"

/-- The number of the page in the window. -/
def windowPage : Path := window.key "page"

/-- The bytes of the page in the window. -/
def windowData : Path := window.key "data"

/-- The window before any page is loaded into it. -/
def emptyWindow : Nbt := .compound [("data", zeroPage), ("id", .text ""), ("page", .int (-1))]

/-- A value that is only looked at by the next command. -/
def scratch : Path := .shared "tmp"

/-- The memories of the module. -/
def memoriesPath : Path := .own "mems"

/-- The pages of a memory. -/
def pagesPath (index : UInt32) : Path := memoriesPath.index index.toInt32

/-- A page of a memory. -/
def pagePath (index : UInt32) (page : Nat) : Path := (pagesPath index).index (Int32.ofNat page)

/-- What the window says when it belongs to a memory. -/
def ownerId (ns : String) (index : UInt32) : Nbt := .text (ns ++ ":" ++ toString index.toNat)

/-! ## Loading and storing pages -/

/-- Leave zero in a register exactly if the window belongs to the memory.  A copy of the owner is
    overwritten with the memory's own mark, and that is a success unless it changes nothing. -/
def ownerCheck (ns : String) (index : UInt32) (r : Register) : List Command :=
  [.setFrom scratch windowId,
    .execute [.store .success (.score r)] (.setData scratch (ownerId ns index))]

/-- The tree that loads the page whose number is in `#index`. -/
def swapInTree (index : UInt32) : DispatchTree := ⟨.swapIn index, .index, 16⟩

/-- The tree that stores the window into the page whose number is in `#index`. -/
def swapOutTree (index : UInt32) : DispatchTree := ⟨.swapOut index, .index, 16⟩

/-- The pages that a memory may have. -/
def pageSpan (max : UInt32) : Span := ⟨0, max.toNat⟩

/-- Run a command only if the wanted page is not in the window. -/
def onFault (c : Command) : Command := c.ifIn .pageFault (.exact 1)

/-- Load the page whose number is in `#target_page`, unless it is in the window. -/
def swapInCommands (ns : String) (index max : UInt32) : List Command :=
  [.setScore .pageFault 0] ++ ownerCheck ns index .pageFault ++
    [(Command.load .swap windowPage).ifIn .pageFault (.exact 0),
      ((Command.setScore .pageFault 1).guarded
        (.exceptIf (.compare .swap .eq .targetPage))).ifIn .pageFault (.exact 0),
      -- The owner stores the window before anything is loaded over it.
      onFault (.callTag .swapOut),
      onFault (.copy .index .targetPage),
      onFault (.call ((swapInTree index).symbol (pageSpan max))),
      onFault (.setData windowId (ownerId ns index)),
      onFault (.save windowPage .targetPage)]

/-- Store the window into its page. -/
def swapOutCommands (index max : UInt32) : List Command :=
  [.load .index windowPage, .call ((swapOutTree index).symbol (pageSpan max))]

/-! ## Operations -/

/-- Load the page of the address in `#index`, leave the offset in the page there, and go on with
    a byte of the window. -/
def accessCommands (index : UInt32) (byteRoutine : Routine) : List Command :=
  [.copy .targetAddress .index,
    .copy .targetPage .index,
    .operation .targetPage .div (.const (Int32.ofNat pageSize)),
    -- An address in the upper half of the range counts as negative, and so does its page.
    (Command.addScore .targetPage (Int32.ofNat pageSize)).ifIn .targetPage (.atMost (-1)),
    .call (.memory index .swapIn),
    .copy .index .targetAddress,
    .operation .index .mod (.const (Int32.ofNat pageSize)),
    .call (.routine byteRoutine)]

/-- Push the number of pages. -/
def sizeCommands (index : UInt32) : List Command :=
  [.append .stack (.int 0),
    .execute [.store .result (.storage (.operand (-1)) .int)] (.getData (pagesPath index))]

/-- Replace the number of wanted pages on top of the operand stack by the number of pages before,
    or by -1 if there cannot be so many. -/
def growCommands (index max : UInt32) : List Command :=
  [.load .a (.operand (-1)),
    .load .b (pagesPath index),
    .copy .c .b,
    .operation .c .add .a,
    -- `#d` tells whether there is room; a sum that wraps around comes from too large an `#a`.
    .setScore .d 0,
    ((Command.setScore .d 1).ifIn .c (.between 0 max.toInt32)).ifIn .a (.between 0 max.toInt32),
    .save (.operand (-1)) .b,
    (Command.setData (.operand (-1)) (.int (-1))).ifIn .d (.exact 0),
    (Command.call (.memory index .growUnchecked)).ifIn .d (.exact 1)]

/-- Append as many pages of zeros as `#a` says. -/
def growUncheckedCommands (index : UInt32) : List Command :=
  [(Command.call (.memory index .growLoop)).ifIn .a (.atLeast 1)]

/-- Append a page of zeros, and go on while `#a` counts down. -/
def growLoopCommands (index : UInt32) : List Command :=
  [.appendFrom (pagesPath index) zeroPagePath,
    .addScore .a (-1),
    (Command.call (.memory index .growLoop)).ifIn .a (.atLeast 1)]

/-! ## Memories -/

/-- The sequences of a memory that may have pages. -/
def pagedSequences (ns : String) (index max : UInt32) : List Sequence :=
  (swapInTree index).sequences (fun page => .setFrom windowData (pagePath index page))
      (pageSpan max) ++
    (swapOutTree index).sequences (fun page => .setFrom (pagePath index page) windowData)
      (pageSpan max) ++
    [⟨.memory index .swapIn, swapInCommands ns index max⟩,
      ⟨.memory index .swapOut, swapOutCommands index max⟩,
      ⟨.memory index .get, accessCommands index .byteGet⟩,
      ⟨.memory index .set, accessCommands index .byteSet⟩,
      ⟨.memory index .size, sizeCommands index⟩,
      ⟨.memory index .grow, growCommands index max⟩,
      ⟨.memory index .growUnchecked, growUncheckedCommands index⟩,
      ⟨.memory index .growLoop, growLoopCommands index⟩]

/-- The sequences of a memory that can never have a page. -/
def pagelessSequences (index : UInt32) : List Sequence :=
  [⟨.memory index .get, [.setScore .a 0]⟩,
    ⟨.memory index .set, []⟩,
    ⟨.memory index .size, [.append .stack (.int 0)]⟩,
    ⟨.memory index .grow,
      [.load .a (.operand (-1)),
        (Command.setData (.operand (-1)) (.int (-1))).unlessIn .a (.exact 0)]⟩]

/-- The sequences of an imported memory pass everything on. -/
def forwardedMemory (index : UInt32) (source : ExternalId) : List Sequence :=
  MemoryOp.exported.map fun op => ⟨.memory index op, [.call (.importMemory source op)]⟩

/-- The sequences of a memory. -/
def memorySequences (ns : String) (index : UInt32) : MemoryEntry → List Sequence
  | .imported source => forwardedMemory index source
  | .defined limits =>
    if effectiveMax limits = 0 then pagelessSequences index
    else pagedSequences ns index (effectiveMax limits)

/-- Whether the memory can have pages of its own. -/
def MemoryEntry.isPaged (entry : MemoryEntry) : Bool := entry.maxPages?.any (0 < ·)

/-- Make room for a memory, and give it its first pages. -/
def initMemory (index : UInt32) (entry : MemoryEntry) : List Command :=
  .append memoriesPath .emptyList ::
    match entry with
    | .defined limits =>
      if entry.isPaged && 0 < limits.min then
        [.setScore .a limits.min.toInt32, .call (.memory index .growUnchecked)]
      else []
    | .imported _ => []

/-- Store the window if it belongs to a memory. -/
def swapOutIfOwner (ns : String) (index : UInt32) : List Command :=
  ownerCheck ns index .swap ++ [(Command.call (.memory index .swapOut)).ifIn .swap (.exact 0)]

/-- Store the window if it belongs to a memory of the module; nothing if no memory has pages. -/
def swapOutAllCommands (ns : String) (memories : Array MemoryEntry) : List Command :=
  memories.toList.zipIdx.flatMap fun (entry, i) =>
    if entry.isPaged then swapOutIfOwner ns (UInt32.ofNat i) else []

end WasmPack.Compile
