/-
  WasmPack.Proofs.Compile.Coverage

  From instructions to modules.  A vocabulary that has the instructions of a
  module has the code of its functions, constants and segments too, as soon as
  it has the few commands that are put around them.
-/
import WasmPack.Compile.Module
import WasmPack.Proofs.Compile.Program
import WasmPack.Proofs.Compile.Vocabulary

namespace WasmPack.Compile

open Wasm

variable {V : Vocabulary} {P : Instr → Bool} {spaces : IndexSpaces} {m : Module} {n : Nat}

/-! ## What a vocabulary needs -/

/-- The code that is compiled passes a test where it is live. -/
structure LiveCode (spaces : IndexSpaces) (m : Module) (P : Instr → Bool) : Prop where
  funcs : ∀ {type locals body}, .defined type locals body ∈ spaces.funcs →
    Instr.allLive P body = true
  globals : ∀ {type init}, .defined type init ∈ spaces.globals → Instr.allLive P init = true
  data : ∀ {segment}, segment ∈ m.data → Instr.allLive P segment.offset = true

/-- Where nothing is asked of code, all code will do. -/
theorem liveCode_of_forall (h : ∀ i, P i = true) : LiveCode spaces m P :=
  ⟨fun _ => Instr.allLive_of_forall h _, fun _ => Instr.allLive_of_forall h _,
    fun _ => Instr.allLive_of_forall h _⟩

/-- The vocabulary has the instructions without branches, and what is put around code. -/
structure Vocabulary.Surrounds (V : Vocabulary) (spaces : IndexSpaces) (P : Instr → Bool) :
    Prop where
  covers : ∀ locals, V.Covers ⟨spaces, locals⟩ P
  localRoom : ∀ {n}, V.Has n (.append .frame (.int 0))
  forward : ∀ {n type source}, .imported type source ∈ spaces.funcs → ∀ params,
    V.HasAll n (forwardCall (.importFunc source) params)
  globalRoom : ∀ {n}, V.Has n (.append globalsPath (.int 0))
  setGlobal : ∀ {n} index, V.HasAll n (setGlobal index)
  address : ∀ {n}, V.HasAll n [.load .address top, .dropOperand]
  writeByte : ∀ {n memory entry}, spaces.memoryAt memory = .ok entry → ∀ k byte,
    V.HasAll n (writeByte memory k byte)
  start : ∀ {n index entry}, spaces.funcAt index = .ok entry →
    V.HasAll n (callSequence (.func index) 0)

namespace Vocabulary

/-- That a look-up succeeds is all there is to one whose result is not used. -/
theorem Emits.look {α : Type} {x : Except CompileError α} :
    V.Emits n (Functor.discard (x : Gen α)) fun _ _ => ∃ a, x = .ok a := by
  have hbind : Functor.discard (x : Gen α) = (x : Gen α) >>= fun _ => Pure.pure () := rfl
  rw [hbind]
  exact .bind .accept fun _ a _ ha => .pure fun _ _ => ⟨a, ha⟩

theorem hasAll_flatten {parts : List (List Command)} (h : ∀ cs ∈ parts, V.HasAll n cs) :
    V.HasAll n parts.flatten := by
  intro c hc
  obtain ⟨cs, hcs, hc⟩ := List.mem_flatten.1 hc
  exact h cs hcs c hc

/-! ## Code of the module -/

section Code

variable (hV : V.Surrounds spaces P)

include hV

theorem emits_lowerBlock {locals depth : Nat} {labels : List Label} {height : UInt32} {body : Expr}
    (hbody : Instr.allLive P body = true) :
    V.Emits n (lowerBlock ⟨spaces, locals⟩ depth labels height body) fun n' code =>
      V.HasAll n' code.commands :=
  .bind .accept fun _ _ _ _ => emits_lowerList (hV.covers locals) _ _ _ _ body hbody

theorem emits_lowerConst {init : Expr} (hinit : Instr.allLive P init = true) :
    V.Emits n (lowerConst spaces init) V.HasAll :=
  .bind (emits_lowerBlock hV hinit) fun _ _ _ hcode => .pure fun _ hle => hcode.grow hle

variable (hlive : LiveCode spaces m P)

include hlive

theorem emits_funcCommands {entry : FuncEntry} (hentry : entry ∈ spaces.funcs) :
    V.Emits n (funcCommands spaces entry) V.HasAll := by
  cases entry with
  | defined type locals body =>
    refine .bind (emits_lowerBlock hV (hlive.funcs hentry)) fun _ code _ hcode =>
      .pure fun _ hle => hasAll_append.2 ⟨fun c hc => ?_, hcode.grow hle⟩
    obtain ⟨_, -, rfl⟩ := List.mem_map.1 hc
    exact hV.localRoom
  | imported type source => exact .pure fun _ _ => hV.forward hentry _

/-- The sequences of functions. -/
theorem emits_funcSequences : V.Emits n (funcSequences spaces) fun n' ss =>
    ∀ s ∈ ss, (∃ i, s.symbol = .func i) ∧ V.HasAll n' s.commands := by
  refine .mapM (fun hle h => ⟨h.1, h.2.grow hle⟩) fun ⟨entry, i⟩ hi _ => ?_
  have hentry : entry ∈ spaces.funcs :=
    Array.mem_toList_iff.1 (List.mem_of_getElem? (List.mem_zipIdx_iff_getElem?.1 hi))
  exact .bind (emits_funcCommands hV hlive hentry) fun _ cs _ hcs =>
    .pure fun _ hle => ⟨⟨_, rfl⟩, hcs.grow hle⟩

theorem emits_initGlobal (index : UInt32) {entry : GlobalEntry} (hentry : entry ∈ spaces.globals) :
    V.Emits n (initGlobal spaces index entry) V.HasAll := by
  have hroom : ∀ {n}, V.HasAll n [.append globalsPath (.int 0)] :=
    hasAll_cons.2 ⟨hV.globalRoom, hasAll_nil⟩
  cases entry with
  | defined type init =>
    exact .bind (emits_lowerConst hV (hlive.globals hentry)) fun _ cs _ hcs => .pure fun _ hle =>
      hasAll_append.2 ⟨hasAll_append.2 ⟨hroom, hcs.grow hle⟩, hV.setGlobal _⟩
  | imported type source => exact .pure fun _ _ => hroom

theorem emits_initGlobals : V.Emits n (initGlobals spaces) V.HasAll := by
  refine .bind (.mapM (fun hle h => h.grow hle) fun ⟨entry, i⟩ hi _ => ?_) fun _ parts _ hparts =>
    .pure fun _ hle => (hasAll_flatten hparts).grow hle
  have hentry : entry ∈ spaces.globals :=
    Array.mem_toList_iff.1 (List.mem_of_getElem? (List.mem_zipIdx_iff_getElem?.1 hi))
  exact emits_initGlobal hV hlive _ hentry

theorem emits_initData {segment : Data} (hsegment : segment ∈ m.data) :
    V.Emits n (initData spaces segment) V.HasAll := by
  refine .bind .look fun _ _ _ hmemory => .bind (emits_lowerConst hV (hlive.data hsegment))
    fun _ offset _ hoffset => .pure fun _ hle =>
      hasAll_append.2 ⟨hasAll_append.2 ⟨hoffset.grow hle, hV.address⟩, fun c hc => ?_⟩
  obtain ⟨entry, hentry⟩ := hmemory
  obtain ⟨⟨byte, k⟩, -, hc⟩ := List.mem_flatMap.1 hc
  exact hV.writeByte hentry k byte c hc

omit hlive in
theorem hasAll_of_startCommands {start : Option UInt32} {cs : List Command}
    (h : startCommands spaces start = .ok cs) : V.HasAll n cs := by
  cases start with
  | none =>
    cases h
    exact hasAll_nil
  | some index =>
    obtain ⟨⟨entry, hentry⟩, h⟩ := except_discard_bind_eq_ok.1 h
    cases h
    exact hV.start hentry

end Code

end Vocabulary

/-- What the commands that prepare a module begin with. -/
def initHead (spaces : IndexSpaces) : List Command :=
  [.setData memoriesPath .emptyList, .setData globalsPath .emptyList] ++ initMemories spaces

/-- The vocabulary has the functions of a module, and what prepares it behind its beginning. -/
theorem Vocabulary.emits_lowerModule (hV : V.Surrounds spaces P) (hlive : LiveCode spaces m P) :
    V.Emits n (lowerModule spaces m) fun n' r =>
      (∀ s ∈ r.1, (∃ i, s.symbol = .func i) ∧ V.HasAll n' s.commands) ∧
        ∃ rest, V.HasAll n' rest ∧ r.2 = initHead spaces ++ rest := by
  refine .bind (emits_funcSequences hV hlive) fun n₁ functions _ hf =>
    .bind (emits_initGlobals hV hlive) fun n₂ globals hle₂ hg =>
      .bind (.mapM (fun hle h => h.grow hle) fun segment hsegment _ =>
        emits_initData hV hlive hsegment) fun n₃ data hle₃ hd =>
          .bind .accept fun n₄ start hle₄ hs => .pure fun n₅ hle₅ =>
            ⟨fun s hs => ⟨(hf s hs).1, (hf s hs).2.grow (by omega)⟩,
              globals ++ data.flatten ++ start, ?_, by simp [initHead]⟩
  exact hasAll_append.2 ⟨hasAll_append.2 ⟨hg.grow (by omega), (hasAll_flatten hd).grow (by omega)⟩,
    hasAll_of_startCommands hV hs⟩

/-! ## Pieces of a compiled module -/

/-- What code generation made of a module belongs to the vocabulary. -/
theorem Compiled.emitted {ns : String} {p : Program} (c : Compiled ns m p)
    (hV : V.Surrounds c.spaces P) (hlive : LiveCode c.spaces m P) :
    (∀ s ∈ c.functions, (∃ i, s.symbol = .func i) ∧ V.HasAll c.pool.size s.commands) ∧
      (∃ rest, V.HasAll c.pool.size rest ∧ c.init = initHead c.spaces ++ rest) ∧
      ∀ cs ∈ c.pool, V.HasAll c.pool.size cs := by
  obtain ⟨-, ⟨hf, hi⟩, hpool⟩ := Vocabulary.emits_lowerModule hV hlive #[] (Nat.zero_le _)
    (fun cs hcs => nomatch hcs) _ _ c.lowered
  exact ⟨hf, hi, hpool⟩

end WasmPack.Compile
