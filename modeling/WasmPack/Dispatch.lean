/-
  WasmPack.Dispatch

  Choosing one of many commands by the value of a register.

  There is no computed jump, so the choice is a tree of guarded calls.  A node
  divides its span of keys into parts whose sizes differ by at most one, larger
  parts first.  A part of one key holds its command in place; a longer part is
  a node of its own.
-/
import WasmPack.Program

namespace WasmPack

/-! ## Spans of keys -/

/-- The keys from `lo` on, `size` of them. -/
structure Span where
  lo : Nat
  size : Nat
deriving DecidableEq, Inhabited

namespace Span

/-- The last key of the span. -/
def last (s : Span) : Nat := s.lo + s.size - 1

/-- Spans of the given sizes, one behind the other. -/
def chain (lo : Nat) : List Nat → List Span
  | [] => []
  | size :: sizes => ⟨lo, size⟩ :: chain (lo + size) sizes

theorem mem_of_mem_chain {s : Span} {lo : Nat} {sizes : List Nat} (h : s ∈ chain lo sizes) :
    s.size ∈ sizes := by
  induction sizes generalizing lo with
  | nil => simp [chain] at h
  | cons size sizes ih =>
    rcases List.mem_cons.1 h with rfl | h
    · exact List.mem_cons_self
    · exact List.mem_cons_of_mem _ (ih h)

end Span

/-- The sizes of `count` parts of `size` keys. -/
def partSizes (count size : Nat) : List Nat :=
  List.replicate (size % count) (size / count + 1) ++
    List.replicate (count - size % count) (size / count)

theorem partSizes_lt {count size n : Nat} (hc : 2 ≤ count) (hs : 2 ≤ size)
    (h : n ∈ partSizes count size) : n < size := by
  have hdiv := Nat.div_add_mod size count
  have hle : 2 * (size / count) ≤ count * (size / count) := Nat.mul_le_mul_right _ hc
  rcases List.mem_append.1 h with h | h
  · obtain ⟨hne, rfl⟩ := List.mem_replicate.1 h
    omega
  · obtain ⟨-, rfl⟩ := List.mem_replicate.1 h
    omega

/-! ## Trees -/

/-- A tree of guarded calls: what it selects, the register that holds the key, and into how many
    parts a node divides its span. -/
structure DispatchTree where
  base : TreeBase
  key : Register
  factor : Nat := 16
deriving DecidableEq, Inhabited

namespace DispatchTree

/-- The parts of a span: as many as the factor says, but at least two, and none of them empty. -/
def parts (t : DispatchTree) (s : Span) : List Span :=
  Span.chain s.lo (partSizes (min (max t.factor 2) s.size) s.size)

theorem size_lt_of_mem_parts {t : DispatchTree} {s part : Span} (h : part ∈ t.parts s)
    (hp : part.size ≠ 1) : part.size < s.size := by
  have hmem := Span.mem_of_mem_chain h
  match hs : s.size with
  | 0 => rw [hs] at hmem; simp [partSizes] at hmem
  | 1 =>
    rw [hs, Nat.min_eq_right (by omega)] at hmem
    simp [partSizes] at hmem
    omega
  | n + 2 =>
    rw [hs] at hmem
    exact partSizes_lt (by omega) (by omega) hmem

/-- The symbol of the node for a span. -/
def symbol (t : DispatchTree) (s : Span) : Symbol := .tree t.base s.lo s.last

/-- The command of a key, run only if the register holds that key. -/
def branch (t : DispatchTree) (leaf : Nat → Command) (key : Nat) : Command :=
  (leaf key).ifIn t.key (.exact (Int32.ofNat key))

/-- The call of a node, made only if the register holds one of its keys. -/
def descend (t : DispatchTree) (s : Span) : Command :=
  (Command.call (t.symbol s)).ifIn t.key (.between (Int32.ofNat s.lo) (Int32.ofNat s.last))

/-- The commands of the node for a span, with the sequences of the nodes below it.  The command of a
    key is made when its place in the tree is reached, and making it may have effects. -/
def nodeM [Monad m] (t : DispatchTree) (leaf : Nat → m Command) (s : Span) :
    m (List Sequence × List Command) := do
  let branches ← (t.parts s).attach.mapM fun part =>
    if _ : part.val.size = 1 then do
      let c ← leaf part.val.lo
      return (([] : List Sequence), c.ifIn t.key (.exact (Int32.ofNat part.val.lo)))
    else do
      let (below, commands) ← t.nodeM leaf part.val
      return (below ++ [⟨t.symbol part.val, commands⟩], t.descend part.val)
  return (branches.flatMap (·.1), branches.map (·.2))
termination_by s.size
decreasing_by exact size_lt_of_mem_parts part.property ‹_›

/-- The sequences of the tree for a span: every node behind those it calls, so the root comes
    last. -/
def sequencesM [Monad m] (t : DispatchTree) (leaf : Nat → m Command) (s : Span) :
    m (List Sequence) := do
  let (below, commands) ← t.nodeM leaf s
  return below ++ [⟨t.symbol s, commands⟩]

/-- The node for a span, where making the commands of the keys has no effects. -/
def node (t : DispatchTree) (leaf : Nat → Command) (s : Span) : List Sequence × List Command :=
  Id.run (t.nodeM (fun key => pure (leaf key)) s)

/-- The tree for a span, where making the commands of the keys has no effects. -/
def sequences (t : DispatchTree) (leaf : Nat → Command) (s : Span) : List Sequence :=
  Id.run (t.sequencesM (fun key => pure (leaf key)) s)

end DispatchTree

end WasmPack
