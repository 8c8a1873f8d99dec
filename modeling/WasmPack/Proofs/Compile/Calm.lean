/-
  WasmPack.Proofs.Compile.Calm

  Which sequences leave control flow alone: those of the library, of memories and
  of globals neither change `#br_depth` nor look at frames and conditions, and
  call only each other.
-/
import WasmPack.Proofs.Compile.Sequences
import WasmPack.Proofs.Execution.Dispatch
import WasmPack.Library.Basic

namespace WasmPack

/-! ## Calm commands -/

/-- A sequence that leaves control flow alone, of the module or the library. -/
def Symbol.isCalm : Symbol → Bool
  | .memory _ _ => true
  | .swapOutAll => true
  | .global _ _ => true
  | .tree _ _ _ => true
  | .routine r => decide (r ≠ .load)
  | _ => false

/-- An operation on a memory or a global of another module. -/
def Symbol.isForwarded : Symbol → Bool
  | .importMemory _ _ => true
  | .importGlobal _ _ => true
  | _ => false

/-- Calls of calm sequences, and of the tag that stores the window. -/
def Calls.calm : Calls := ⟨Symbol.isCalm, fun t => decide (t = .swapOut)⟩

/-- Everything but what control flow is kept in. -/
def Writes.calm : Writes :=
  ⟨fun r => decide (r ≠ .brDepth), fun k => decide (k ≠ "frames" ∧ k ≠ "conditions")⟩

/-- The command leaves control flow alone. -/
def Command.isCalm (c : Command) : Bool := c.staysIn .calm .calm

/-- Calls of anything but functions, fragments, and what prepares a part. -/
def Calls.unframed : Calls :=
  ⟨fun s => s.isCalm || s.isForwarded, fun t => decide (t = .swapOut)⟩

/-- Everything but frames. -/
def Writes.unframed : Writes := ⟨fun _ => true, fun k => decide (k ≠ "frames")⟩

/-- The command neither looks at frames nor calls a function or a fragment. -/
def Command.isUnframed (c : Command) : Bool := c.staysIn .unframed .unframed

theorem Writes.calm_among_unframed : Writes.calm.Among .unframed :=
  ⟨fun _ _ => rfl, fun _ hk => decide_eq_true (of_decide_eq_true hk).1⟩

theorem Calls.calm_among_unframed : Calls.calm.Among .unframed :=
  ⟨fun _ h => Bool.or_eq_true_iff.2 (.inl h), fun _ h => h⟩

theorem Command.isUnframed_of_isCalm {c : Command} (hc : c.isCalm = true) : c.isUnframed = true :=
  staysIn_mono Writes.calm_among_unframed Calls.calm_among_unframed hc

/-- Basic commands are calm. -/
theorem Command.isCalm_of_isBasic {c : Command} (hc : c.isBasic = true) : c.isCalm = true := by
  refine staysIn_mono ⟨fun r hr => (Bool.and_eq_true_iff.1 hr).2, fun k hk => ?_⟩
    ⟨fun s hs => ?_, fun t (ht : false = true) => nomatch ht⟩
    (staysIn_of_isBasic hc)
  · rw [of_decide_eq_true hk]
    decide
  · cases s with
    | memory i op => rfl
    | global i op => rfl
    | routine r =>
      refine decide_eq_true fun hr => ?_
      subst hr
      cases hs
    | _ => cases hs

namespace Compile

open Wasm

variable {ns : String} {s : Sequence} {m : Module} {p : Program} {spaces : IndexSpaces}

/-- All the commands leave control flow alone. -/
abbrev Calm : List Command → Prop := All Command.isCalm

/-! ## Memories -/

theorem calm_ownerCheck (i : UInt32) {r : Register} (hr : r ≠ .brDepth) :
    Calm (ownerCheck ns i r) := by
  refine all_cons.2 ⟨by decide, all_cons.2 ⟨?_, all_nil⟩⟩
  simp [Command.isCalm, Command.staysIn, Command.isWithin, Modifier.isWithin, StoreTarget.isWithin,
    Command.callsWithin, Command.paths, Modifier.paths, Writes.calm, Path.isWithin, scratch,
    Path.shared, hr]

theorem calm_swapIn (i max : UInt32) : Calm (swapInCommands ns i max) := by
  unfold swapInCommands
  simp only [all_append, all_cons]
  exact ⟨⟨by decide, calm_ownerCheck i (by decide)⟩, by decide, by decide, by decide, by decide,
    rfl, rfl, by decide, all_nil⟩

theorem calm_paged {i max : UInt32} (h : s ∈ pagedSequences ns i max) : Calm s.commands := by
  simp only [pagedSequences, List.mem_append, List.mem_cons, List.not_mem_nil, or_false] at h
  rcases h with (h | h) | rfl | rfl | rfl | rfl | rfl | rfl | rfl | rfl
  · exact DispatchTree.forall_of_mem_sequences (fun _ _ => rfl) (fun _ _ _ => rfl) h
  · exact DispatchTree.forall_of_mem_sequences (fun _ _ => rfl) (fun _ _ _ => rfl) h
  · exact calm_swapIn i max
  · exact all_cons.2 ⟨by decide, all_cons.2 ⟨rfl, all_nil⟩⟩
  all_goals
    intro c hc
    simp only [accessCommands, sizeCommands, growCommands, growUncheckedCommands, growLoopCommands,
      List.mem_cons, List.not_mem_nil, or_false] at hc
    rcases hc with rfl | rfl | rfl | rfl | rfl | rfl | rfl | rfl | rfl <;> rfl

/-- The sequences of a memory that the module defines. -/
theorem calm_memory {i : UInt32} {limits : Limits}
    (h : s ∈ memorySequences ns i (.defined limits)) : Calm s.commands := by
  simp only [memorySequences] at h
  split at h
  · simp only [pagelessSequences, List.mem_cons, List.not_mem_nil, or_false] at h
    rcases h with rfl | rfl | rfl | rfl <;> exact of_decide_eq_true rfl
  · exact calm_paged h

theorem calm_swapOutAll (memories : Array MemoryEntry) :
    Calm (swapOutAllCommands ns memories) := by
  refine all_flatMap fun ⟨entry, i⟩ _ => ?_
  simp only
  split
  · exact all_append.2 ⟨calm_ownerCheck _ (by decide), all_cons.2 ⟨rfl, all_nil⟩⟩
  · exact all_nil

/-! ## Globals and exports -/

/-- The sequences of a global that the module defines. -/
theorem calm_global {i : UInt32} {type : GlobalType} {init : Expr}
    (h : s ∈ globalSequences i (.defined type init)) : Calm s.commands := by
  simp only [globalSequences, List.mem_cons, List.not_mem_nil, or_false] at h
  rcases h with rfl | rfl
  · exact all_cons.2 ⟨rfl, all_nil⟩
  · exact all_cons.2 ⟨rfl, all_cons.2 ⟨rfl, all_nil⟩⟩

/-- The symbols of exports are not those of calm sequences. -/
theorem isCalm_of_mem_exports (h : s ∈ exportSequences spaces m) : s.symbol.isCalm = false := by
  obtain h | h := List.mem_append.1 h
  · obtain h | h := List.mem_append.1 h
    · obtain ⟨e, -, h⟩ := List.mem_flatMap.1 h
      rw [List.mem_singleton.1 h]
      rfl
    · obtain ⟨e, -, h⟩ := List.mem_flatMap.1 h
      obtain ⟨op, -, rfl⟩ := List.mem_map.1 h
      rfl
  · obtain ⟨e, -, h⟩ := List.mem_flatMap.1 h
    obtain ⟨op, -, rfl⟩ := List.mem_map.1 h
    rfl

/-! ## The library -/

theorem calm_routine {r : Routine} (hr : r ≠ .load) : Calm (Library.routineCommands r) := by
  cases r <;> first | exact absurd rfl hr | decide

/-- Every sequence of the library but the one that prepares it is calm. -/
theorem calm_library (h : s ∈ Library.program.sequences) :
    s.symbol = .routine .load ∨ Calm s.commands := by
  obtain h | h := List.mem_append.1 h
  · obtain ⟨r, -, rfl⟩ := List.mem_map.1 h
    by_cases hr : r = .load
    · exact .inl (by rw [hr])
    · exact .inr (calm_routine hr)
  · obtain h | h := List.mem_append.1 h
    · exact .inr (DispatchTree.forall_of_mem_sequences (fun _ _ => rfl) (fun _ _ _ => rfl) h)
    · exact .inr (DispatchTree.forall_of_mem_sequences (fun _ _ => rfl) (fun _ _ _ => rfl) h)

end Compile

end WasmPack
