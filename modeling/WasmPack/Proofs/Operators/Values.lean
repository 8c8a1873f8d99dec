/-
  WasmPack.Proofs.Operators.Values

  Operators of integers: what those of two integers are worth, and what remains
  to be shown of the commands that work an operator out.

  The operands come from the operand stack into `#a` and `#b`, or a single one
  into `#a`, and the number in `#a` goes back.  In between lie the commands of
  one operator, and it is enough to know what they make of the numbers and which
  registers they touch.
-/
import WasmPack.Proofs.Execution.Booted
import WasmPack.Proofs.Operators.Integers
import WasmPack.Proofs.Operators.Registers

namespace WasmPack

open Machine Compile Wasm
open Nbt (entries)

/-! ## Values -/

/-- The number of places that a count stands for. -/
def places (n : Int32) : Nat := unsigned n % 32

theorem places_lt {n : Int32} : places n < 32 := Nat.mod_lt _ (by omega)

/-- What an operator of two integers gives, if it does not trap. -/
def Wasm.IntBinary.value? : IntBinary → Int32 → Int32 → Option Int32
  | .add, x, y => some (x + y)
  | .sub, x, y => some (x - y)
  | .mul, x, y => some (x * y)
  | .div .signed, x, y =>
    if y = 0 ∨ x = Int32.minValue ∧ y = -1 then none
    else some (Int32.ofInt (x.toInt.tdiv y.toInt))
  | .div .unsigned, x, y =>
    if y = 0 then none else some (x.toUInt32 / y.toUInt32).toInt32
  | .rem .signed, x, y => if y = 0 then none else some (Int32.ofInt (x.toInt.tmod y.toInt))
  | .rem .unsigned, x, y => if y = 0 then none else some (x.toUInt32 % y.toUInt32).toInt32
  | .and, x, y => some (x &&& y)
  | .or, x, y => some (x ||| y)
  | .xor, x, y => some (x ^^^ y)
  | .shl, x, y => some (Int32.ofBitVec (x.toBitVec <<< places y))
  | .shr .signed, x, y => some (Int32.ofBitVec (x.toBitVec.sshiftRight (places y)))
  | .shr .unsigned, x, y => some (Int32.ofBitVec (x.toBitVec >>> places y))
  | .rotl, x, y => some (Int32.ofBitVec (x.toBitVec.rotateLeft (places y)))
  | .rotr, x, y => some (Int32.ofBitVec (x.toBitVec.rotateRight (places y)))

namespace Machine

variable {parts : List Part} {m : Machine} {code : Code} {ns : String} {cs : List Command}
  {σ : State} {rs qs : List Register} {op : IntBinary} {l : Lowered} {x y z n : Int32}
  {low xs : List Nbt}

/-! ## Commands on two operands -/

/-- The registers in which routines compute. -/
def lettered : List Register := [.a, .b, .c, .d, .e, .f]

/-- From `x` in `#a` and `y` in `#b` the commands bring `z` into `#a`, and they touch no other
    registers than those. -/
def Turns (code : Code) (rs : List Register) (cs : List Command) (x y z : Int32) : Prop :=
  ∀ ns σ, Seeded σ → σ.regs .a = some x → σ.regs .b = some y →
    Computes code ns cs σ fun τ => Touches rs σ τ ∧ τ.regs .a = some z

theorem Turns.mono (h : Turns code rs cs x y z) (hsub : rs ⊆ qs) : Turns code qs cs x y z :=
  fun ns σ hσ ha hb => (h ns σ hσ ha hb).mono fun _ hτ => ⟨hτ.1.mono hsub, hτ.2⟩

/-- A routine is called, and other commands go on with what it has left. -/
theorem Turns.andThen {routine : Routine} {Q : State → Prop}
    (h : Turns code rs (Library.routineCommands routine) x y z) (hlib : code.HasLibrary)
    (hσ : Seeded σ) (ha : σ.regs .a = some x) (hb : σ.regs .b = some y)
    (hrest : ∀ τ, Touches rs σ τ → τ.regs .a = some z → Computes code ns cs τ Q) :
    Computes code ns (.call (.routine routine) :: cs) σ Q :=
  .call hlib (h sharedNamespace σ hσ ha hb) fun τ hτ => hrest τ hτ.1 hτ.2

/-- A routine is called. -/
theorem Turns.call (hlib : code.HasLibrary) {routine : Routine}
    (h : Turns code rs (Library.routineCommands routine) x y z) :
    Turns code rs [.call (.routine routine)] x y z := fun _ σ hσ ha hb =>
  .callLast hlib (h sharedNamespace σ hσ ha hb)

/-- From `x` in `#a` the commands bring `z` into `#a`, whatever `#b` holds, and they touch no other
    registers than those. -/
def Yields (code : Code) (rs : List Register) (cs : List Command) (x z : Int32) : Prop :=
  ∀ ns σ, Seeded σ → σ.regs .a = some x →
    Computes code ns cs σ fun τ => Touches rs σ τ ∧ τ.regs .a = some z

/-- A routine is called. -/
theorem Yields.call (hlib : code.HasLibrary) {routine : Routine}
    (h : Yields code rs (Library.routineCommands routine) x z) :
    Yields code rs [.call (.routine routine)] x z := fun _ σ hσ ha =>
  .callLast hlib (h sharedNamespace σ hσ ha)

/-- The commands turn operands into the value of the operator, where it has one. -/
def Implements (code : Code) (cs : List Command) (op : IntBinary) : Prop :=
  ∀ x y, ∃ z, Turns code lettered cs x y z ∧ ∀ r, op.value? x y = some r → z = r

/-- No constant is lettered. -/
theorem Touches.seeded {τ : State} (h : Touches lettered σ τ) (hσ : Seeded σ) : Seeded τ :=
  fun n hn => h.read (by simp [lettered]) (hσ n hn)

/-! ## Operators on the operand stack -/

theorem Touches.operands {τ : State} (h : Touches rs σ τ) : τ.operands = σ.operands :=
  congrFun (congrFun h.cells sharedId) "stack"

theorem Touches.setOperands {τ : State} (h : Touches rs σ τ) (xs : List Nbt) :
    Touches rs (σ.setOperands xs) (τ.setOperands xs) := by
  refine ⟨h.regs, ?_⟩
  funext i k
  show (if _ then _ else τ.cells i k) = if _ then _ else σ.cells i k
  rw [h.cells]

/-- The state in which both operands are loaded; the lower one is still there. -/
def State.loaded (σ : State) (low : List Nbt) (x y : Int32) : State :=
  ((σ.setReg .b y).setOperands (low ++ [.int x])).setReg .a x

@[simp] theorem State.loaded_a : (σ.loaded low x y).regs .a = some x := rfl

@[simp] theorem State.loaded_b : (σ.loaded low x y).regs .b = some y := rfl

theorem touches_loaded : Touches lettered (σ.setOperands (low ++ [.int x])) (σ.loaded low x y) := by
  have hb : Touches lettered σ (σ.setReg .b y) := by simp [lettered]
  simpa [lettered, State.loaded] using hb.setOperands (low ++ [.int x])

/-- A single operand is loaded, and is still there. -/
theorem touches_loadedTop (hstack : σ.operands = some (entries (low ++ [.int x]))) :
    Touches lettered (σ.setOperands (low ++ [.int x])) (σ.setReg .a x) := by
  have hself : σ.setOperands (low ++ [.int x]) = σ := State.setOperands_eq_self hstack
  rw [hself]
  simp [lettered]

/-- Both operands are loaded. -/
theorem Computes.loadOperands {Q : State → Prop}
    (hstack : σ.operands = some (entries (low ++ [.int x, .int y])))
    (h : Computes code ns cs (σ.loaded low x y) Q) :
    Computes code ns (Compile.loadOperands ++ cs) σ Q := by
  have hboth : low ++ [Nbt.int x, .int y] = (low ++ [.int x]) ++ [.int y] := by simp
  rw [hboth] at hstack
  apply Computes.plain (steps_loadTop hstack)
  apply Computes.plain (steps_dropOperand (x := .int y) (by rw [State.operands_setReg, hstack]))
  exact Computes.plain (steps_loadTop (State.operands_setOperands _ _)) h

/-- What is computed into `#a` takes the place of the topmost operand. -/
theorem Computes.saveTop {v : Nbt} {τ : State}
    (h : Computes code ns cs τ fun υ => Touches lettered τ υ ∧ υ.regs .a = some z)
    (hτ : Touches lettered (σ.setOperands (low ++ [v])) τ) :
    Computes code ns (cs ++ [.save top .a]) τ (Touches lettered (σ.setOperands (low ++ [.int z]))) := by
  apply h.seq
  rintro υ ⟨hυ, hz⟩
  have hall : Touches lettered (σ.setOperands (low ++ [v])) υ := hτ.trans hυ
  have hlow : υ.operands = some (entries (low ++ [v])) := by
    rw [hall.operands, State.operands_setOperands]
  have hend : Touches lettered (σ.setOperands (low ++ [.int z]))
      (υ.setOperands (low ++ [.int z])) := by
    rw [← State.setOperands_setOperands σ (low ++ [v])]
    exact hall.setOperands _
  exact .plain (steps_saveTop hlow hz) (.nil hend)

/-- Where the topmost operands are `xs`, the commands leave `z` in their place, and change nothing
    else but registers that are lettered. -/
def Replaces (code : Code) (cs : List Command) (xs : List Int32) (z : Int32) : Prop :=
  ∀ ns σ low, Seeded σ → σ.operands = some (entries (low ++ xs.map .int)) →
    Computes code ns cs σ (Touches lettered (σ.setOperands (low ++ [.int z])))

/-- The two topmost operands give way to the number that is computed from them. -/
theorem Turns.binary (h : Turns code lettered cs x y z) :
    Replaces code (binary cs).commands [x, y] z := by
  intro ns σ low hσ hstack
  have hseeded : Seeded (σ.loaded low x y) := touches_loaded.seeded hσ
  show Computes code ns (loadOperands ++ cs ++ [.save top .a]) σ _
  rw [List.append_assoc]
  exact .loadOperands hstack (.saveTop (h ns _ hseeded State.loaded_a State.loaded_b) touches_loaded)

/-- The topmost operand gives way to the number that is computed from it. -/
theorem Yields.unary (h : Yields code lettered cs x z) :
    Replaces code (unary cs).commands [x] z := by
  intro ns σ low hσ hstack
  have hloaded := touches_loadedTop hstack
  have hseeded : Seeded (σ.setReg .a x) := hloaded.seeded hσ
  exact .plain (steps_loadTop hstack) (.saveTop (h ns _ hseeded (by simp)) hloaded)

/-- Where the library has been prepared, commands that replace operands come to their end. -/
theorem Replaces.completes {operands : List Int32} (h : Replaces m.code cs operands z)
    (hm : Booted parts m) (hs : m.store.Models σ)
    (hstack : σ.operands = some (entries (low ++ operands.map .int))) :
    Completes m.code ns cs m.store (Touches lettered (σ.setOperands (low ++ [.int z]))) := by
  obtain ⟨τ, hτ, hseeded⟩ := hm.seeded
  rw [hτ.unique hs] at hseeded
  obtain ⟨υ, hruns, hυ⟩ := h ns σ low hseeded hstack
  exact hruns.completes hs hυ

/-- Where the library has been prepared, the commands of an operator come to their end, leave its
    value in place of its operands, and change nothing else but registers that are lettered. -/
theorem Implements.completes (hop : Implements m.code (binaryBody op) op) (h : Booted parts m)
    (hs : m.store.Models σ) (hstack : σ.operands = some (entries (low ++ [.int x, .int y])))
    (hz : op.value? x y = some z) : ∃ l, lowerNumeric (.intBinary .w32 op) = .ok l ∧
      Completes m.code ns l.commands m.store
        (Touches lettered (σ.setOperands (low ++ [.int z]))) := by
  obtain ⟨r, hr, hvalue⟩ := hop x y
  rw [hvalue z hz] at hr
  exact ⟨_, rfl, hr.binary.completes h hs hstack⟩

theorem Completes.operands {s : Store}
    (h : Completes code ns cs s (Touches lettered (σ.setOperands xs))) :
    Completes code ns cs s fun τ => τ.operands = some (entries xs) :=
  h.mono fun _ hτ => hτ.operands.trans (State.operands_setOperands ..)

end Machine

end WasmPack
