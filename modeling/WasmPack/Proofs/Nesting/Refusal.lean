/-
  WasmPack.Proofs.Nesting.Refusal

  Why code generation refuses a module, or rather why it does not: as long as
  no expression is nested deeper than the limit, or as long as the heights of the
  operand stack fit in 32 bits, every error has some other cause.  The lemmas follow
  the generator, function by function, down to the instructions themselves; where it
  comes to in the code that they enclose is known.
-/
import WasmPack.Proofs.Validation.Module
import WasmPack.Proofs.Validation.Rises

namespace WasmPack

/-! ## Errors -/

section

variable {ε α β : Type} {e : ε}

/-- A computation does not end with a certain error. -/
def Avoids (e : ε) (x : Except ε α) : Prop := x ≠ .error e

namespace Avoids

theorem pure (a : α) : Avoids e (pure a) := nofun

theorem throw {e' : ε} (h : e' ≠ e) : Avoids e (throw e' : Except ε α) := fun heq =>
  h (Except.error.inj heq)

theorem bind {x : Except ε α} {f : α → Except ε β} (hx : Avoids e x)
    (hf : ∀ a, x = .ok a → Avoids e (f a)) : Avoids e (x >>= f) := by
  intro h
  obtain h | ⟨a, ha, h⟩ := except_bind_eq_error.1 h
  · exact hx h
  · exact hf a ha h

theorem discard {x : Except ε α} (hx : Avoids e x) : Avoids e (discard x) :=
  .bind hx fun _ _ => .pure _

theorem forM {xs : List α} {f : α → Except ε PUnit} (h : ∀ x ∈ xs, Avoids e (f x)) :
    Avoids e (xs.forM f) := by
  induction xs with
  | nil => exact .pure _
  | cons x xs ih => exact .bind (h x (.head _)) fun _ _ => ih fun y hy => h y (.tail _ hy)

theorem foldlM {xs : List α} {f : β → α → Except ε β} {b : β} (h : ∀ b a, Avoids e (f b a)) :
    Avoids e (xs.foldlM f b) := by
  induction xs generalizing b with
  | nil => exact .pure _
  | cons x xs ih => exact .bind (h b x) fun _ _ => ih

end Avoids

end

namespace Compile

open Wasm

variable {α β : Type} {e : CompileError}

/-- A generation does not end with a certain error, whatever fragments there are. -/
def GenAvoids (e : CompileError) (x : Gen α) : Prop := ∀ pool, Avoids e (x pool)

namespace GenAvoids

theorem pure (a : α) : GenAvoids e (pure a) := fun _ => .pure _

theorem lift {x : Except CompileError α} (h : Avoids e x) : GenAvoids e (x : Gen α) := fun _ =>
  .bind h fun _ _ => .pure _

theorem bind {x : Gen α} {f : α → Gen β} (hx : GenAvoids e x) (hf : ∀ a, GenAvoids e (f a)) :
    GenAvoids e (x >>= f) := fun pool => .bind (hx pool) fun (a, pool') _ => hf a pool'

theorem lift_bind {x : Except CompileError α} {f : α → Gen β} (hx : Avoids e x)
    (hf : ∀ a, x = .ok a → GenAvoids e (f a)) : GenAvoids e ((x : Gen α) >>= f) := by
  intro pool h
  obtain h | ⟨a, ha, h⟩ := gen_lift_bind_eq_error.1 h
  · exact hx h
  · exact hf a ha pool h

theorem mapM {f : α → Gen β} {xs : List α} (h : ∀ x ∈ xs, GenAvoids e (f x)) :
    GenAvoids e (xs.mapM f) := by
  induction xs with
  | nil =>
    rw [List.mapM_nil]
    exact .pure []
  | cons x xs ih =>
    rw [List.mapM_cons]
    exact .bind (h x (.head _)) fun _ => .bind (ih fun y hy => h y (.tail _ hy)) fun _ => .pure _

end GenAvoids

/-! ## The errors for sizes -/

/-- The error of code that is nested too deep. -/
def tooDeep : CompileError := .limitExceeded .nesting

/-- The error comes of how deep code is nested, or of how high the operand stack is. -/
def CompileError.isSize : CompileError → Bool
  | .limitExceeded .nesting | .overflow => true
  | _ => false

variable {scope : Scope} {spaces : IndexSpaces} {c : Context} {st : Stand} {depth : Nat}
  {labels : List Label} {height label results : UInt32} {mnemonic : String} {m : Module} {i : Instr}
  {rest : List Instr} {p q : Point} {pos : Position}

theorem avoids_throw {e' : CompileError} (he : e.isSize = true) (h : e'.isSize = false) :
    Avoids e (throw e' : Except CompileError α) := .throw fun heq => by
  rw [heq, he] at h
  cases h

theorem avoids_entryAt (he : e.isSize = true) {kind : IndexKind} {entries : Array α}
    {index : UInt32} : Avoids e (entryAt kind entries index) := by
  unfold entryAt
  split
  · exact .pure _
  · exact avoids_throw he rfl

theorem avoids_blockArity (he : e.isSize = true) {type : BlockType} :
    Avoids e (spaces.blockArity type) := by
  unfold IndexSpaces.blockArity
  split
  · exact .pure _
  · exact .pure _
  · exact avoids_throw he rfl
  · exact .bind (avoids_entryAt he) fun _ _ => .pure _

theorem avoids_below (he : e.isSize = true) {count : UInt32} :
    Avoids e (below mnemonic height count) := by
  unfold below
  split
  · exact .pure _
  · exact avoids_throw he rfl

theorem avoids_above {count : UInt32}
    (h : e = .overflow → height.toNat + count.toNat < UInt32.size) :
    Avoids e (above height count) := fun herror =>
    let ⟨hsize, he⟩ := above_eq_error.1 herror
    absurd (h he) (Nat.not_lt_of_le hsize)

theorem avoids_labelAt (he : e.isSize = true) : Avoids e (labelAt labels depth label) := by
  unfold labelAt
  split
  · split
    · exact .pure _
    · exact avoids_throw he rfl
  · exact avoids_throw he rfl

theorem avoids_branch (he : e.isSize = true) {target : Nat} {l : Label}
    (h : e = .overflow → l.full < UInt32.size) : Avoids e (branch mnemonic height target l) :=
  .bind (avoids_above h) fun _ _ => .bind (avoids_below he) fun _ _ => .pure _

theorem avoids_checkNesting (h : e = tooDeep → depth ≤ maxNesting) :
    Avoids e (checkNesting depth) := by
  unfold checkNesting
  split
  · exact .pure _
  · rename_i hdeep
    exact .throw fun heq => hdeep (h heq.symm)

/-! ## Instructions without branches -/

theorem avoids_checkLocal (he : e.isSize = true) {index : UInt32} :
    Avoids e (checkLocal scope index) := by
  unfold checkLocal
  split
  · exact .pure _
  · exact avoids_throw he rfl

theorem avoids_lowerNumeric (he : e.isSize = true) {op : NumericOp} :
    Avoids e (lowerNumeric op) := by
  unfold lowerNumeric
  split
  case h_7 => exact avoids_throw he rfl
  all_goals exact .pure _

theorem avoids_lowerLoad (he : e.isSize = true) {op : LoadOp} {arg : MemArg} :
    Avoids e (lowerLoad op arg) := by
  unfold lowerLoad
  split
  · exact .pure _
  · exact avoids_throw he rfl

theorem avoids_lowerStore (he : e.isSize = true) {op : StoreOp} {arg : MemArg} :
    Avoids e (lowerStore op arg) := by
  unfold lowerStore
  split
  · exact .pure _
  · exact avoids_throw he rfl

/-- By the counts of an instruction without branches, the height behind it fits in 32 bits. -/
def HeightFits (scope : Scope) (height : UInt32) (i : Instr) : Prop :=
  ∃ c counts, Agrees scope c ∧ c.counts? i = some counts ∧ counts.params ≤ height.toNat ∧
    height.toNat - counts.params + counts.results < UInt32.size

theorem avoids_lowerStraight (he : e.isSize = true)
    (hfits : e = .overflow → HeightFits scope height i) :
    Avoids e (lowerStraight scope height i) := by
  -- What is added stands for the results by the counts, and what it is added to for the rest.
  have habove : ∀ {base count : UInt32}, (∀ c counts, Agrees scope c → c.counts? i = some counts →
      counts.params ≤ height.toNat →
        base.toNat + count.toNat ≤ height.toNat - counts.params + counts.results) →
      Avoids e (above base count) := fun h => avoids_above fun heq =>
    let ⟨c, counts, hagrees, hcounts, hle, hlt⟩ := hfits heq
    Nat.lt_of_le_of_lt (h c counts hagrees hcounts hle) hlt
  cases i with
  | nop => exact .pure _
  | i32Const =>
    refine .bind (habove ?_) fun _ _ => .pure _
    rintro c counts - ⟨⟩ -
    exact Nat.le_refl _
  | call func =>
    refine .bind (avoids_entryAt he) fun entry hentry => .bind (avoids_below he) fun base hbase =>
      .bind (habove fun c counts hagrees hcounts hle => ?_) fun _ _ => .pure _
    obtain ⟨entry', hentry', harity⟩ := hagrees.funcAt hcounts
    cases hentry.symm.trans hentry'
    rw [harity] at hbase ⊢
    obtain ⟨-, rfl⟩ := below_eq_ok.1 hbase
    exact Nat.add_le_add (Nat.le_of_eq (toNat_sub_ofNat hle)) (toNat_ofNat_le _)
  | drop => exact .bind (avoids_below he) fun _ _ => .pure _
  | select =>
    refine .bind (avoids_below he) fun base hbase => .bind (habove ?_) fun _ _ => .pure _
    rintro c counts - ⟨⟩ -
    exact Nat.add_le_add_right (Nat.le_sub_of_add_le (Nat.le_of_eq (toNat_of_below hbase).symm)) 1
  | localGet index =>
    refine .bind (avoids_checkLocal he) fun _ _ => .bind (habove fun c counts _ hcounts _ => ?_)
      fun _ _ => .pure _
    obtain ⟨-, rfl⟩ := indexed_eq_some.1 hcounts
    exact Nat.le_refl _
  | localSet index =>
    exact .bind (avoids_checkLocal he) fun _ _ => .bind (avoids_below he) fun _ _ => .pure _
  | localTee index =>
    exact .bind (avoids_checkLocal he) fun _ _ => .bind (avoids_below he).discard fun _ _ => .pure _
  | globalGet index =>
    refine .bind (avoids_entryAt he).discard fun _ _ =>
      .bind (habove fun c counts _ hcounts _ => ?_) fun _ _ => .pure _
    obtain ⟨-, rfl⟩ := indexed_eq_some.1 hcounts
    exact Nat.le_refl _
  | globalSet index =>
    exact .bind (avoids_entryAt he).discard fun _ _ => .bind (avoids_below he) fun _ _ => .pure _
  | load op arg =>
    refine .bind (avoids_entryAt he).discard fun _ _ => .bind (avoids_below he) fun base hbase =>
      .bind (avoids_lowerLoad he) fun _ _ => .bind (habove fun c counts _ hcounts _ => ?_)
        fun _ _ => .pure _
    obtain ⟨-, rfl⟩ := indexed_eq_some.1 hcounts
    exact Nat.add_le_add_right (Nat.le_sub_of_add_le (Nat.le_of_eq (toNat_of_below hbase).symm)) 1
  | store op arg =>
    exact .bind (avoids_entryAt he).discard fun _ _ => .bind (avoids_below he) fun _ _ =>
      .bind (avoids_lowerStore he) fun _ _ => .pure _
  | memorySize memory =>
    refine .bind (avoids_entryAt he).discard fun _ _ =>
      .bind (habove fun c counts _ hcounts _ => ?_) fun _ _ => .pure _
    obtain ⟨-, rfl⟩ := indexed_eq_some.1 hcounts
    exact Nat.le_refl _
  | memoryGrow memory =>
    refine .bind (avoids_entryAt he).discard fun _ _ => .bind (avoids_below he) fun base hbase =>
      .bind (habove fun c counts _ hcounts _ => ?_) fun _ _ => .pure _
    obtain ⟨-, rfl⟩ := indexed_eq_some.1 hcounts
    exact Nat.add_le_add_right (Nat.le_sub_of_add_le (Nat.le_of_eq (toNat_of_below hbase).symm)) 1
  | numeric op =>
    refine .bind (avoids_lowerNumeric he) fun lowered hop =>
      .bind (avoids_below he) fun base hbase => .bind (habove ?_) fun _ _ => .pure _
    rintro c counts - ⟨⟩ hle
    obtain ⟨cs, hlowered⟩ := exists_lowerNumeric (mem_supportedOps hop)
    cases hop.symm.trans hlowered
    obtain ⟨-, rfl⟩ := below_eq_ok.1 hbase
    exact Nat.add_le_add (Nat.le_of_eq (toNat_sub_ofNat hle)) (toNat_ofNat_le _)
  | _ => exact avoids_throw he rfl

/-! ## Branches -/

section Branches

variable {condition : List Modifier} {table : List UInt32} {default : UInt32}

/-- What a branch to a label needs fits in 32 bits. -/
def LabelFits (labels : List Label) (depth : Nat) (label : UInt32) : Prop :=
  ∀ target l, labelAt labels depth label = .ok (target, l) → l.full < UInt32.size

theorem avoids_lowerBr (he : e.isSize = true) (h : e = .overflow → LabelFits labels depth label) :
    Avoids e (lowerBr mnemonic depth labels height label) :=
  .bind (avoids_labelAt he) fun _ hl => .bind (avoids_branch he fun heq => h heq _ _ hl) fun _ _ =>
    .pure _

theorem avoids_asOne {cs : List Command} : GenAvoids e (asOne cs) := fun pool h =>
  let ⟨_, hr⟩ := exists_asOne cs pool
  nomatch hr.symm.trans h

theorem avoids_branchIf (he : e.isSize = true) (h : e = .overflow → LabelFits labels depth label) :
    GenAvoids e (branchIf mnemonic depth labels height label condition) :=
  .lift_bind (avoids_labelAt he) fun _ hl =>
    .lift_bind (avoids_branch he fun heq => h heq _ _ hl) fun _ _ => .bind avoids_asOne fun _ =>
      .pure _

theorem avoids_lowerBrIf (he : e.isSize = true) (h : e = .overflow → LabelFits labels depth label) :
    GenAvoids e (lowerBrIf mnemonic depth labels height label) :=
  .bind (.bind (.lift (avoids_labelAt he)) fun _ => .pure _) fun _ =>
    .lift_bind (avoids_below he) fun _ _ => .bind (avoids_branchIf he h) fun _ => .pure _

theorem avoids_branchCases (he : e.isSize = true)
    (h : e = .overflow → ∀ label ∈ table, LabelFits labels depth label) (n : Nat) :
    GenAvoids e (branchCases mnemonic depth labels height n table) := by
  induction table generalizing n with
  | nil => exact .pure _
  | cons label table ih =>
    exact .bind (avoids_branchIf he fun heq => h heq _ (.head _)) fun _ =>
      .bind (ih (fun heq l hl => h heq l (.tail _ hl)) (n + 1)) fun _ => .pure _

theorem avoids_lowerBrTable (he : e.isSize = true)
    (h : e = .overflow → ∀ label ∈ default :: table, LabelFits labels depth label) :
    GenAvoids e (lowerBrTable mnemonic depth labels height table default) :=
  .lift_bind (avoids_below he) fun _ _ =>
    .bind (avoids_branchCases he (fun heq l hl => h heq l (.tail _ hl)) 0) fun _ =>
      .bind (avoids_branchIf he fun heq => h heq _ (.head _)) fun _ => .pure _

end Branches

/-! ## Constructs -/

theorem avoids_lowerLoop {code : Block} : GenAvoids e (lowerLoop depth code height) := fun pool h =>
  let ⟨_, hr⟩ := exists_lowerLoop depth code height pool
  nomatch hr.symm.trans h

/-- Code generation stands where validation does, and the true numbers fit in 32 bits, there and
    behind the first instruction. -/
structure Fitting (scope : Scope) (c : Context) (p : Point) (st : Stand) : Prop where
  agrees : Agrees scope c
  tracks : Tracks c p st
  within : st.Within (2 ^ 32 - 1)
  behind : ∀ i rest k, p.code = i :: rest →
    validateInstr c st.arities st.base ⟨st.height, false⟩ i = some ⟨k, false⟩ → k < 2 ^ 32

namespace Fitting

variable (h : Fitting scope c ⟨depth, labels, height, results, i :: rest⟩ st)

include h

theorem toNat_height : height.toNat = st.height := by
  have hle := h.within.height
  have hheight : height = UInt32.ofNat st.height := h.tracks.height
  rw [hheight]
  exact UInt32.toNat_ofNat_of_lt' (by simp only [UInt32.size]; omega)

theorem heightFits (hi : i.isStraight = true) : HeightFits scope height i := by
  obtain ⟨s, hs⟩ := h.tracks.validate
  obtain ⟨counts, hcounts, hle, rfl⟩ := (validateInstr_straight hi).1 hs
  have hlt := h.behind i rest _ rfl hs
  rw [HeightFits, h.toNat_height]
  exact ⟨c, counts, h.agrees, hcounts, by omega, hlt⟩

theorem labelFits (label : UInt32) : LabelFits labels depth label := by
  intro target l hl
  obtain ⟨-, -, hl⟩ := labelAt_eq_ok.1 hl
  have hlabels : labels = (st.bounds.map labelOf).reverse := h.tracks.labels
  have hmem := List.mem_of_getElem? hl
  rw [hlabels, List.mem_reverse] at hmem
  obtain ⟨b, hb, rfl⟩ := List.mem_map.1 hmem
  have hle := h.within.bounds b hb
  have hsum : (labelOf b).full ≤ b.base + b.arity :=
    Nat.add_le_add (toNat_ofNat_le _) (toNat_ofNat_le _)
  simp only [UInt32.size]
  omega

/-- Behind a construct, too. -/
theorem construct {type : BlockType} {counts : Counts} {arity : Arity} {base : UInt32}
    (taken : Nat) (hcounts : c.blockCounts? type = some counts)
    (harity : scope.spaces.blockArity type = .ok arity)
    (hbase : st.height - taken = base.toNat + arity.params.toNat)
    (hle : counts.params ≤ st.height - taken)
    (hs : validateInstr c st.arities st.base ⟨st.height, false⟩ i =
      some ⟨st.height - taken - counts.params + counts.results, false⟩) :
    base.toNat + arity.results.toNat < UInt32.size := by
  obtain rfl := h.agrees.arity_eq harity hcounts
  have hlt := h.behind i rest _ rfl hs
  have hheight := h.within.height
  have hparams : (UInt32.ofNat counts.params).toNat = counts.params :=
    UInt32.toNat_ofNat_of_lt' (by simp only [UInt32.size]; omega)
  have hresults := toNat_ofNat_le counts.results
  simp only [arityOfCounts, UInt32.size] at hbase ⊢
  omega

end Fitting

/-- An instruction is not refused for a size of its own. -/
theorem avoids_shell (he : e.isSize = true) (hnest : e = tooDeep → depth + i.nesting ≤ maxNesting)
    (hfits : e = .overflow →
      ∃ c st, Fitting scope c ⟨depth, labels, height, results, i :: rest⟩ st) :
    GenAvoids e (lowerInstr scope depth labels height i.shell) := by
  -- A construct can be refused for its depth, which its own nesting bounds, and for the height
  -- behind it, which is that of the validation and so fits.
  have hlabel : e = .overflow → ∀ label, LabelFits labels depth label := fun heq label =>
    let ⟨_, _, h⟩ := hfits heq
    h.labelFits label
  cases i with
  | unreachable => exact .pure _
  | block type body =>
    simp only [Instr.nesting] at hnest
    refine .lift_bind (avoids_blockArity he) fun arity harity =>
      .lift_bind (avoids_below he) fun base hbase =>
        .lift_bind (avoids_checkNesting fun heq => by have := hnest heq; omega) fun _ _ =>
          .bind (.pure _) fun _ => .lift_bind (avoids_above fun heq => ?_) fun _ _ => .pure _
    obtain ⟨c, st, h⟩ := hfits heq
    obtain ⟨s, hs⟩ := h.tracks.validate
    obtain ⟨counts, hcounts, hle, -, rfl⟩ := of_validate_block hs
    have hbelow := toNat_of_below hbase
    rw [h.toNat_height] at hbelow
    exact h.construct 0 hcounts harity hbelow (by omega) hs
  | loop type body =>
    simp only [Instr.nesting] at hnest
    refine .lift_bind (avoids_blockArity he) fun arity harity =>
      .lift_bind (avoids_below he) fun base hbase =>
        .lift_bind (avoids_checkNesting fun heq => by have := hnest heq; omega) fun _ _ =>
          .bind (.pure _) fun _ => .lift_bind (avoids_above fun heq => ?_) fun _ _ =>
            avoids_lowerLoop
    obtain ⟨c, st, h⟩ := hfits heq
    obtain ⟨s, hs⟩ := h.tracks.validate
    obtain ⟨counts, hcounts, hle, -, rfl⟩ := of_validate_loop hs
    have hbelow := toNat_of_below hbase
    rw [h.toNat_height] at hbelow
    exact h.construct 0 hcounts harity hbelow (by omega) hs
  | ifElse type consequent alternative =>
    simp only [Instr.nesting] at hnest
    refine .lift_bind (avoids_blockArity he) fun arity harity =>
      .lift_bind (avoids_below he) fun top htop => .lift_bind (avoids_below he) fun base hbase =>
        .lift_bind (avoids_checkNesting fun heq => by have := hnest heq; omega) fun _ _ =>
          .bind (.pure _) fun _ => .bind (.pure _) fun _ => .bind avoids_asOne fun _ =>
            .bind avoids_asOne fun _ => .lift_bind (avoids_above fun heq => ?_) fun _ _ => .pure _
    obtain ⟨c, st, h⟩ := hfits heq
    obtain ⟨s, hs⟩ := h.tracks.validate
    obtain ⟨counts, hcounts, hle, -, rfl⟩ := of_validate_ifElse hs
    have htop := toNat_of_below htop
    have hbelow := toNat_of_below hbase
    have hone : (1 : UInt32).toNat = 1 := rfl
    rw [h.toNat_height] at htop
    exact h.construct 1 hcounts harity (by omega) (by omega) hs
  | br label | ret => exact .lift (avoids_lowerBr he fun heq => hlabel heq _)
  | brIf label => exact avoids_lowerBrIf he fun heq => hlabel heq _
  | brTable table default => exact avoids_lowerBrTable he fun heq label _ => hlabel heq label
  | _ =>
    refine .lift_bind (avoids_lowerStraight he fun heq => ?_) fun _ _ => .pure _
    obtain ⟨c, st, h⟩ := hfits heq
    exact h.heightFits rfl

/-! ## Lists -/

/-- A list is not refused for a size, if none is too great at the places that code generation comes
    to. -/
theorem avoids_lowerList (he : e.isSize = true)
    (hnest : e = tooDeep → ∀ pos q, Visits scope p pos q → q.depth + nestingOf q.code ≤ maxNesting)
    (hfits : e = .overflow → ∀ pos q, Visits scope p pos q → ∃ c st, Fitting scope c q st) :
    GenAvoids e (lowerList scope p.depth p.labels p.height p.code) := by
  intro pool herror
  have hfails : p.Fails scope e := fails_of_lowerList p.code herror
  obtain ⟨pos, ⟨depth, labels, height, results, code⟩, hq, i, rest, rfl, hrefused⟩ := hfails
  refine avoids_shell he (fun heq => ?_) (fun heq => hfits heq _ _ hq) #[] (hrefused #[])
  have hle := hnest heq _ _ hq
  simp only [nestingOf] at hle
  omega

/-- On the way into code, what is left of it is nested less deep. -/
theorem Visits.nesting_le (hv : Visits scope p pos q) :
    q.depth + nestingOf q.code ≤ p.depth + nestingOf p.code := by
  induction hv with
  | here p => exact Nat.le_refl _
  | behind _ _ _ ih | block _ _ _ ih | loop _ _ _ ih =>
    simp only [nestingOf, Instr.nesting] at ih ⊢
    omega
  | @ifElse _ _ _ _ _ _ _ _ _ _ _ turn _ _ _ _ _ _ _ ih =>
    simp only [nestingOf, Instr.nesting] at ih ⊢
    split at ih <;> omega

theorem avoids_tooDeep (h : p.depth + nestingOf p.code ≤ maxNesting) :
    GenAvoids tooDeep (lowerList scope p.depth p.labels p.height p.code) :=
  avoids_lowerList rfl (fun _ _ _ hq => Nat.le_trans hq.nesting_le h) nofun

/-! ## Modules -/

section Code

/-- No body of the module is refused with an error. -/
def BodiesAvoid (e : CompileError) (m : Module) : Prop := ∀ b ∈ m.bodies,
  GenAvoids e (lowerList ⟨.declared m, b.locals⟩ 0 [⟨0, UInt32.ofNat b.results⟩] 0 b.code)

theorem avoids_lowerBlock {body : Expr} (h : GenAvoids e (lowerList scope 0 labels height body)) :
    GenAvoids e (lowerBlock scope 0 labels height body) :=
  .bind (.lift (avoids_checkNesting fun _ => Nat.zero_le _)) fun _ => h

variable (he : e.isSize = true) (h : BodiesAvoid e m)

include h

theorem avoids_lowerConst {init : Expr} (hb : ⟨0, 1, init⟩ ∈ m.bodies) :
    GenAvoids e (lowerConst (.declared m) init) :=
  .bind (avoids_lowerBlock (h _ hb)) fun _ => .pure _

theorem avoids_funcSequences : GenAvoids e (funcSequences (.declared m)) := by
  refine .mapM fun (entry, i) hi => .bind ?_ fun _ => .pure _
  have hentry := List.fst_mem_of_mem_zipIdx hi
  cases entry with
  | defined type locals body =>
    exact .bind (avoids_lowerBlock (h _ (body_mem_of_func hentry))) fun _ => .pure _
  | imported type source => exact .pure _

theorem avoids_initGlobals : GenAvoids e (initGlobals (.declared m)) := by
  refine .bind (.mapM fun (entry, i) hi => ?_) fun _ => .pure _
  have hentry := List.fst_mem_of_mem_zipIdx hi
  cases entry with
  | defined type init =>
    exact .bind (avoids_lowerConst h (body_mem_of_global hentry)) fun _ => .pure _
  | imported type source => exact .pure _

include he

theorem avoids_initData {segment : Data} (hsegment : segment ∈ m.data) :
    GenAvoids e (initData (.declared m) segment) :=
  .bind (.bind (.lift (avoids_entryAt he)) fun _ => .pure _) fun _ =>
    .bind (avoids_lowerConst h (body_mem_of_data hsegment)) fun _ => .pure _

omit h in
theorem avoids_startCommands {start : Option UInt32} : Avoids e (startCommands spaces start) := by
  cases start with
  | none => exact .pure _
  | some index => exact .bind (avoids_entryAt he).discard fun _ _ => .pure _

theorem avoids_lowerModule : GenAvoids e (lowerModule (.declared m) m) :=
  .bind (avoids_funcSequences h) fun _ => .bind (avoids_initGlobals h) fun _ =>
    .bind (.mapM fun _ hsegment => avoids_initData he h hsegment) fun _ =>
      .bind (.lift (avoids_startCommands he)) fun _ => .pure _

end Code

section Declarations

variable (he : e.isSize = true)

include he

theorem avoids_checkType {site : TypeSite} {type : ValueType} : Avoids e (checkType site type) := by
  unfold checkType
  split
  · exact .pure _
  · exact avoids_throw he rfl

theorem avoids_checkTypes : Avoids e (checkTypes m) := by
  refine .bind (.forM fun (type, i) _ => .forM fun _ _ => avoids_checkType he) fun _ _ =>
    .bind (.forM fun (func, i) _ => .forM fun _ _ => avoids_checkType he) fun _ _ =>
      .bind (.forM fun (global, i) _ => avoids_checkType he) fun _ _ => .forM fun i _ => ?_
  cases i.desc with
  | global type => exact avoids_checkType he
  | _ => exact .pure _

theorem avoids_checkNamespace {ns : String} : Avoids e (checkNamespace ns) := by
  unfold checkNamespace
  split
  · exact avoids_throw he rfl
  · split
    · exact avoids_throw he rfl
    · exact .pure _

theorem avoids_checkName {kind : NameKind} {name : String} :
    Avoids e (checkName kind name) := by
  unfold checkName
  split
  · exact .pure _
  · exact avoids_throw he rfl

theorem avoids_checkLimits {limits : Limits} : Avoids e (checkLimits limits) := by
  simp only [checkLimits]
  split
  · exact avoids_throw he rfl
  · split
    · exact avoids_throw he rfl
    · exact .pure _

theorem avoids_addImport {i : Import} : Avoids e (spaces.addImport i) := by
  refine .bind (avoids_checkNamespace he) fun _ _ => .bind (avoids_checkName he) fun _ _ => ?_
  cases i.desc with
  | func index => exact .bind (avoids_entryAt he) fun _ _ => .pure _
  | memory limits => exact .bind (avoids_checkLimits he) fun _ _ => .pure _
  | global type => exact .pure _
  | table type => exact avoids_throw he rfl

theorem avoids_checkExport {x : Export} : Avoids e (spaces.checkExport x) := by
  refine .bind (avoids_checkName he) fun _ _ => ?_
  cases x.kind with
  | table => exact avoids_throw he rfl
  | _ => exact (avoids_entryAt he).discard

theorem avoids_ofModule : Avoids e (IndexSpaces.ofModule m) :=
  .bind (.foldlM fun _ _ => avoids_addImport he) fun _ _ =>
    .bind (.foldlM fun _ _ => .bind (avoids_entryAt he) fun _ _ => .pure _) fun _ _ =>
      .bind (.foldlM fun _ _ => .bind (avoids_checkLimits he) fun _ _ => .pure _) fun _ _ =>
        .bind (.forM fun _ _ => avoids_checkExport he) fun _ _ => .pure _

/-- **Refusals for sizes.**  A module is refused for a size only if one of its bodies is. -/
theorem avoids_compileModule (ns : String) (h : BodiesAvoid e m) :
    Avoids e (compileModule ns m) := by
  refine .bind (avoids_checkNamespace he) fun _ _ => .bind (avoids_checkTypes he) fun _ _ =>
    .bind (avoids_ofModule he) fun spaces hspaces => .bind ?_ fun _ _ => .pure _
  obtain ⟨-, rfl⟩ := ofModule_eq_ok.1 hspaces
  exact avoids_lowerModule he h #[]

end Declarations

/-- **Refusals for nesting.** A module whose code keeps the limit is not refused for nesting. -/
theorem compileModule_ne_tooDeep (ns : String) (h : ∀ body ∈ m.code, nestingOf body ≤ maxNesting) :
    Avoids tooDeep (compileModule ns m) :=
  avoids_compileModule rfl ns fun b hb =>
    avoids_tooDeep (p := start b) (Nat.le_trans (Nat.le_of_eq (Nat.zero_add _)) (h _ (code_mem hb)))

end Compile

end WasmPack
