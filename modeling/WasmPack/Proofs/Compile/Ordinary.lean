/-
  WasmPack.Proofs.Compile.Ordinary

  Which commands code generation emits.  The code of functions and constants is
  made of ordinary commands: neutral ones that call nothing but functions,
  fragments, routines, and the operations on memories and globals that other
  modules may call too.
-/
import WasmPack.Proofs.Compile.Straight
import WasmPack.Proofs.Compile.Vocabulary

namespace WasmPack

/-! ## Ordinary commands -/

/-- A sequence that code of functions may call. -/
def Symbol.isOrdinary : Symbol → Bool
  | .func _ => true
  | .fragment _ => true
  | .memory _ op => op ∈ MemoryOp.exported
  | .global _ _ => true
  | .importFunc _ => true
  | .importMemory _ op => op ∈ MemoryOp.exported
  | .importGlobal _ _ => true
  | .routine r => r ∉ [.load, .byteGet, .byteSet]
  | _ => false

/-- What code of functions may call. -/
def Calls.ordinary : Calls := ⟨Symbol.isOrdinary, fun _ => false⟩

/-- A command as the code of functions has them. -/
def Command.isOrdinary (c : Command) : Bool :=
  c.isNeutral && c.callsWithin .ordinary && c.staysHome

theorem Command.isOrdinary_guarded (c : Command) {g : Modifier} (hg : g.paths = []) :
    (c.guarded g).isOrdinary = (g.isNeutral && c.isOrdinary) := by
  rw [isOrdinary, isNeutral, isWithin_guarded, callsWithin_guarded, staysHome_guarded hg,
    Bool.and_assoc, Bool.and_assoc, isOrdinary, Bool.and_assoc]

theorem Command.isOrdinary_call {target : Symbol} (h : target.isOrdinary = true) :
    (Command.call target).isOrdinary = true := Bool.and_eq_true_iff.2 ⟨h, rfl⟩

/-- Basic commands are ordinary. -/
theorem Command.isOrdinary_of_isBasic {c : Command} (hc : c.isBasic = true) :
    c.isOrdinary = true := by
  have hwrites : Writes.operands.Among .work :=
    ⟨fun r hr => (Bool.and_eq_true_iff.1 hr).1, fun k hk => by
      rw [of_decide_eq_true hk]
      decide⟩
  have hcalls : Calls.operations.Among .ordinary := by
    refine ⟨fun s hs => ?_, fun t ht => nomatch ht⟩
    cases s <;> first | exact hs | rfl | cases hs
  obtain ⟨hc, hhome⟩ := Bool.and_eq_true_iff.1 hc
  rw [isOrdinary, Bool.and_eq_true_iff, Bool.and_eq_true_iff]
  exact ⟨⟨isWithin_mono hwrites (isWithin_of_staysIn hc),
    callsWithin_mono hcalls (callsWithin_of_staysIn hc)⟩, hhome⟩

namespace Compile

open Wasm

/-- All the commands are ordinary. -/
abbrev Ordinary : List Command → Prop := All Command.isOrdinary

variable {α : Type} {cs : List Command} {c : Command}

/-! ## Instructions without branches -/

theorem ordinary_of_basic (h : Basic cs) : Ordinary cs :=
  h.mono fun _ => Command.isOrdinary_of_isBasic

theorem ordinary_callSequence {target : Symbol} (h : target.isOrdinary = true) (params : Nat) :
    Ordinary (callSequence target params) := by
  have hcall := Command.isOrdinary_call h
  unfold callSequence
  simp only [all_append, all_cons]
  exact ⟨⟨⟨by decide, all_map fun j _ => rfl⟩, all_replicate rfl⟩, hcall, by decide⟩

theorem ordinary_forwardCall {target : Symbol} (h : target.isOrdinary = true) (params : Nat) :
    Ordinary (forwardCall target params) := by
  have hcall := Command.isOrdinary_call h
  unfold forwardCall
  simp only [all_append, all_cons]
  exact ⟨all_map fun j _ => rfl, hcall, all_nil⟩

theorem ordinary_of_isStraight {scope : Scope} (h : IsStraight scope cs) : Ordinary cs := by
  cases h with
  | call h => exact ordinary_callSequence rfl _
  | steps h =>
    intro c hc
    cases h c hc with
    | basic h => exact Command.isOrdinary_of_isBasic h
    | readLocal hi => rfl
    | writeLocal hi => rfl

/-- The commands of an instruction behind which the next one always follows. -/
theorem ordinary_of_lowerStraight {scope : Scope} {height height' : UInt32} {i : Instr}
    (h : lowerStraight scope height i = .ok (cs, height')) : Ordinary cs :=
  ordinary_of_isStraight (isStraight_of_lowerStraight h)

/-! ## Generation of ordinary commands -/

theorem isOrdinary_of_isControl (h : IsControl c) : c.isOrdinary = true := by
  cases h <;> rfl

theorem isNeutral_of_isGuard {g : Modifier} (h : IsGuard g) : g.isNeutral = true := by
  cases h <;> rfl

theorem paths_of_isGuard {g : Modifier} (h : IsGuard g) : g.paths = [] := by
  cases h <;> rfl

/-- Ordinary commands, whatever the number of fragments. -/
def Vocabulary.ordinary : Vocabulary where
  Has _ c := c.isOrdinary = true
  grows _ h := h
  control := isOrdinary_of_isControl
  fragment _ := rfl
  guarded hg hc := by
    rw [Command.isOrdinary_guarded _ (paths_of_isGuard hg), isNeutral_of_isGuard hg, hc]
    rfl

theorem covers_ordinary (scope : Scope) : Vocabulary.ordinary.Covers scope fun _ => true :=
  fun _ h _ => ordinary_of_lowerStraight h

end Compile

end WasmPack
