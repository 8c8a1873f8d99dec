/-
  WasmPack.Machine.Store

  What commands read and change: the scores of registers, and storages.
-/
import WasmPack.Machine.Fault
import WasmPack.Nbt.Access

namespace WasmPack.Machine

/-! ## Scores -/

/-- The scores of the registers that have one. -/
abbrev Scores := List (Register × Int32)

namespace Scores

/-- The score of a register. -/
def get? (r : Register) : Scores → Option Int32
  | [] => none
  | (q, n) :: rest => if q = r then some n else get? r rest

/-- Give a register a score. -/
def set (r : Register) (n : Int32) : Scores → Scores
  | [] => [(r, n)]
  | (q, m) :: rest => if q = r then (r, n) :: rest else (q, m) :: set r n rest

theorem get?_set_self (r : Register) (n : Int32) (s : Scores) : get? r (set r n s) = some n := by
  induction s with
  | nil => simp [set, get?]
  | cons e s ih => by_cases h : e.1 = r <;> simp [set, get?, h, ih]

theorem get?_set_of_ne {q r : Register} (h : q ≠ r) (n : Int32) (s : Scores) :
    get? q (set r n s) = get? q s := by
  induction s with
  | nil => simp [set, get?, Ne.symm h]
  | cons e s ih =>
    by_cases hr : e.1 = r
    · simp [set, get?, hr, Ne.symm h]
    · by_cases hq : e.1 = q
      · simp [set, get?, hq, h]
      · simp [set, get?, hr, hq, ih]

end Scores

/-! ## The store -/

/-- The scores, and the storages by their identifiers. -/
structure Store where
  scores : Scores := []
  storages : Fields Nbt := []
deriving DecidableEq, Inhabited

/-- A command's work: it changes the store, and may fail. -/
abbrev Exec := EStateM Fault Store

namespace Store

/-- The score of a register; nothing may be read from one that has none. -/
def read (s : Store) (r : Register) : Except Fault Int32 :=
  match s.scores.get? r with
  | some n => return n
  | none => throw (.unsetScore r)

/-- The score of a register that is about to change; without one it counts from zero. -/
def readTarget (s : Store) (r : Register) : Int32 := (s.scores.get? r).getD 0

/-- What lies at a path, for a module with the given namespace. -/
def lookup (s : Store) (ns : String) (path : Path) : Option Nbt.Slot :=
  match Fields.get? (path.storage.id ns) s.storages with
  | some root => root.lookup path.segments
  | none => none

/-- Change a storage and report on it.  A storage that is missing starts out without fields. -/
def change (s : Store) (id : String) (f : Nbt → Option β × Nbt) : Option β × Store :=
  let ⟨scores, storages⟩ := s
  let (b, storages) := Fields.modify id f (Fields.ensure id (.compound []) storages)
  (b, ⟨scores, storages⟩)

end Store

/-! ## Work on the store -/

/-- Do something that leaves the store alone. -/
def inspect (f : Store → Except Fault α) : Exec α := fun s =>
  match f s with
  | .ok a => .ok a s
  | .error e => .error e s

/-- Give a register a score. -/
def setScore (r : Register) (n : Int32) : Exec Unit := fun s =>
  .ok () { s with scores := s.scores.set r n }

/-- Change what lies at a path; it must be there. -/
def changeAt (ns : String) (path : Path) (f : List Segment → Nbt → Option β × Nbt) : Exec β :=
  fun s =>
    match s.change (path.storage.id ns) (f path.segments) with
    | (some b, s) => .ok b s
    | (none, s) => .error (.missingPath (path.render ns)) s

/-- The value at a path; it must be there. -/
def require (ns : String) (path : Path) : Exec Nbt :=
  inspect fun s =>
    match s.lookup ns path with
    | some slot => return slot.toNbt
    | none => throw (.missingPath (path.render ns))

/-- Set the value at a path, and report whether that changed it. -/
def write (ns : String) (path : Path) (value : Nbt) : Exec Bool :=
  changeAt ns path fun segments root => Nbt.write segments value root

/-- Remove the value at a path. -/
def remove (ns : String) (path : Path) : Exec Unit := changeAt ns path Nbt.remove

/-- Append to the list or byte array at a path. -/
def append (ns : String) (path : Path) (value : Nbt) : Exec Unit := do
  let pushed ← changeAt ns path fun segments root => Nbt.append segments value root
  unless pushed do throw (.typeMismatch (path.render ns) .notAppendable)

end WasmPack.Machine
