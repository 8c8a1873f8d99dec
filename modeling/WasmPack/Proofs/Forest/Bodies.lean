/-
  WasmPack.Proofs.Forest.Bodies

  The code of a list of instructions owns the fragments that are added with it:
  its calls span them, each once and nothing else.  The order is not that of the
  numbers, for the arms of an `if` get theirs behind what is inside them, and what
  follows a guard gets its own in front.
-/
import WasmPack.Proofs.Compile.Straight
import WasmPack.Proofs.Forest.Spans
import WasmPack.Proofs.Nesting.Chain

namespace WasmPack

/-- A command that may call no fragment calls none. -/
theorem Command.fragments_eq_nil {C : Calls} (hC : ∀ f, C.symbol f = true → f.fragment? = none)
    {c : Command} (hc : c.callsWithin C = true) : c.fragments = [] := by
  induction c with
  | call symbol => exact List.filterMap_eq_nil_iff.2 (List.forall_mem_singleton.2 (hC symbol hc))
  | execute ms run ih => exact ih hc
  | _ => rfl

namespace Compile

open Wasm

variable {L : Nat → Block → Prop} {scope : Scope} {depth target : Nat} {labels : List Label}
  {height label : UInt32} {pool pool' pool₁ pool₂ : Pool} {step : Step} {b code : Block}
  {mnemonic : String} {cs ds : List Command} {one other : Option Command} {i : Instr}
  {body rest : List Instr} {ids : List Nat}

/-! ## Loops -/

/-- A loop stands somewhere in a list of instructions at a depth; it has a depth of its own, and a
    body. -/
inductive HasLoop : Nat → Expr → Nat → Expr → Prop where
  | here {depth : Nat} {type : BlockType} {body rest : Expr} :
      HasLoop depth (.loop type body :: rest) (depth + 1) body
  | inside {depth d : Nat} {i : Instr} {rest body inner : Expr} (hbody : body ∈ i.bodies)
      (h : HasLoop (depth + 1) body d inner) : HasLoop depth (i :: rest) d inner
  | later {depth d : Nat} {i : Instr} {rest inner : Expr} (h : HasLoop depth rest d inner) :
      HasLoop depth (i :: rest) d inner

/-- What a list of instructions becomes at a depth. -/
def Becomes (depth : Nat) (body : Expr) (code : Block) : Prop :=
  ∃ scope labels height pool pool',
    lowerList scope depth labels height body pool = .ok (code, pool')

/-- The loops in a list of instructions are among those that there are. -/
def LoopsAmong (L : Nat → Block → Prop) (depth : Nat) (body : Expr) : Prop :=
  ∀ {d inner code}, HasLoop depth body d inner → Becomes d inner code → L d code

namespace LoopsAmong

theorem head (h : LoopsAmong L depth (i :: rest)) : LoopsAmong L depth [i] := by
  intro d inner code hloop hcode
  cases hloop with
  | here => exact h .here hcode
  | inside hbody hloop => exact h (.inside hbody hloop) hcode
  | later hloop => cases hloop

theorem tail (h : LoopsAmong L depth (i :: rest)) : LoopsAmong L depth rest :=
  fun hloop hcode => h (.later hloop) hcode

theorem inside (h : LoopsAmong L depth [i]) (hbody : body ∈ i.bodies) :
    LoopsAmong L (depth + 1) body :=
  fun hloop hcode => h (.inside hbody hloop) hcode

end LoopsAmong

/-! ## Code without calls -/

theorem fragmentCalls_callSequence {f : Symbol} (hf : f.fragment? = none) (params : Nat) :
    fragmentCalls (callSequence f params) = [] := by
  have hcall : (Command.call f).fragments = [] :=
    List.filterMap_eq_nil_iff.2 (List.forall_mem_singleton.2 hf)
  refine fragmentCalls_eq_nil.2 fun c hc => ?_
  simp only [callSequence, List.mem_append, List.mem_cons, List.not_mem_nil, or_false,
    List.mem_map, List.mem_replicate] at hc
  rcases hc with ((rfl | ⟨j, -, rfl⟩) | ⟨-, rfl⟩) | rfl | rfl | rfl
  · rfl
  · rfl
  · rfl
  · exact hcall
  · rfl
  · rfl

theorem fragments_of_isBasic {c : Command} (hc : c.isBasic = true) : c.fragments = [] := by
  refine Command.fragments_eq_nil (fun f hf => ?_)
    (Command.callsWithin_of_staysIn (Command.staysIn_of_isBasic hc))
  cases f <;> first | rfl | cases hf

theorem fragmentCalls_of_isStraight (h : IsStraight scope cs) : fragmentCalls cs = [] := by
  cases h with
  | call hf => exact fragmentCalls_callSequence rfl _
  | steps h =>
    refine fragmentCalls_eq_nil.2 fun c hc => ?_
    cases h c hc with
    | basic hbasic => exact fragments_of_isBasic hbasic
    | readLocal hi => rfl
    | writeLocal hi => rfl

theorem fragmentCalls_branchCommands {l : Label} :
    fragmentCalls (branchCommands height target l) = [] := by
  refine fragmentCalls_eq_nil.2 fun c hc => ?_
  rcases List.mem_append.1 hc with hc | hc
  · rw [List.eq_of_mem_replicate hc]
    rfl
  · rw [List.mem_singleton.1 hc]
    rfl

/-! ## Code around calls -/

/-- Conditions make no difference to what is called. -/
theorem fragmentCalls_map {f : Command → Command} (hf : ∀ c, (f c).fragments = c.fragments)
    (cs : List Command) : fragmentCalls (cs.map f) = fragmentCalls cs := by
  rw [fragmentCalls, List.flatMap_map]
  exact congrArg (cs.flatMap ·) (funext hf)

theorem fragments_foldr_guarded (condition : List Modifier) (c : Command) :
    (condition.foldr (fun m c => c.guarded m) c).fragments = c.fragments := by
  induction condition with
  | nil => rfl
  | cons m condition ih => rw [List.foldr_cons, Command.fragments_guarded, ih]

/-- The choice between two arms calls what the arms call. -/
theorem fragmentCalls_choose :
    fragmentCalls (choose one other) = fragmentCalls one.toList ++ fragmentCalls other.toList := by
  have hunless : ∀ c : Command, (c.unlessIn .a (.exact 0)).fragments = c.fragments := fun c =>
    Command.fragments_guarded c _
  have hif : ∀ c : Command, (c.ifIn .a (.exact 0)).fragments = c.fragments := fun c =>
    Command.fragments_guarded c _
  have hload : ∀ p, (Command.load .a p).fragments = [] := fun _ => rfl
  have hkeep : ∀ p q, (Command.appendFrom p q).fragments = [] := fun _ _ => rfl
  have hdrop : Command.dropOperand.fragments = [] := rfl
  have hforget : ∀ p, (Command.remove p).fragments = [] := fun _ => rfl
  cases other with
  | none =>
    show fragmentCalls (popA ++ one.toList.map (·.unlessIn .a (.exact 0))) = _
    rw [fragmentCalls_append, fragmentCalls_map hunless]
    exact (List.append_nil _).symm
  | some d => cases one <;> simp [choose, hkeep, hdrop, hload, hif, hunless, hforget]

theorem fragmentCalls_closed :
    fragmentCalls (closed depth code height).commands = fragmentCalls code.commands := by
  have hcatch : (catchBranch (depth + 1)).fragments = [] :=
    Command.fragments_guarded (.setScore .brDepth noBranch) _
  unfold closed
  simp only [fragmentCalls_append]
  split <;> simp [hcatch]

/-! ## Numbers that are added -/

/-- The numbers of the fragments that one pool has more than another. -/
abbrev added (pool pool' : Pool) : List Nat := List.range' pool.size (pool'.size - pool.size)

theorem added_self : added pool pool = [] := by
  rw [added, Nat.sub_self]
  rfl

theorem added_append (h : Extends pool pool₁) (h' : Extends pool₁ pool₂) :
    added pool pool₁ ++ added pool₁ pool₂ = added pool pool₂ := by
  obtain ⟨m, hm⟩ := Nat.exists_eq_add_of_le h.size_le
  obtain ⟨n, hn⟩ := Nat.exists_eq_add_of_le h'.size_le
  rw [added, added, added, hn, hm, Nat.add_sub_cancel_left, Nat.add_sub_cancel_left, Nat.add_assoc,
    Nat.add_sub_cancel_left, List.range'_append_1]

theorem le_of_mem_added {id : Nat} (h : id ∈ added pool pool') : pool.size ≤ id :=
  (List.mem_range'_1.1 h).1

theorem added_push : added pool (pool.push cs) = [pool.size] := by
  rw [added, Array.size_push, Nat.add_sub_cancel_left]
  rfl

/-- A reserved number comes in front of those that are added before it is filled. -/
theorem added_fill (h : Extends (pool.push []) pool') :
    added pool (pool'.setIfInBounds pool.size cs) = pool.size :: added (pool.push []) pool' := by
  have happend := added_append (.push pool []) h
  rw [added_push] at happend
  rw [added, Array.size_setIfInBounds]
  exact happend.symm

/-! ## Owning -/

/-- Calls of commands span the fragments that are added to a pool, each of them once. -/
def Owns (L : Nat → Block → Prop) (pool pool' : Pool) (cs : List Command) : Prop :=
  ∃ ids, Spans L pool' (fragmentCalls cs) ids ∧ ids.Perm (added pool pool')

namespace Owns

/-- Commands without calls own nothing. -/
theorem idle (h : fragmentCalls cs = []) : Owns L pool pool cs :=
  ⟨[], h ▸ .nil, by rw [added_self]⟩

theorem congr (h : Owns L pool pool' cs) (heq : fragmentCalls ds = fragmentCalls cs) :
    Owns L pool pool' ds := by
  obtain ⟨ids, hspans, hids⟩ := h
  exact ⟨ids, heq ▸ hspans, hids⟩

theorem append (h : Owns L pool pool₁ cs) (h' : Owns L pool₁ pool₂ ds) (hext : Extends pool pool₁)
    (hext' : Extends pool₁ pool₂) : Owns L pool pool₂ (cs ++ ds) := by
  obtain ⟨ids, hspans, hids⟩ := h
  obtain ⟨ids', hspans', hids'⟩ := h'
  refine ⟨ids ++ ids', ?_, ?_⟩
  · rw [fragmentCalls_append]
    exact (hspans.extend hext').append hspans'
  · rw [← added_append hext hext']
    exact hids.append hids'

/-- A fragment that is added behind those of its code. -/
theorem push (h : Owns L pool pool₁ cs) (hext : Extends pool pool₁)
    (hbody : HasBody L (pool₁.push ds) pool₁.size cs) :
    Owns L pool (pool₁.push ds) [callFragment pool₁.size] := by
  obtain ⟨ids, hspans, hids⟩ := h
  refine ⟨pool₁.size :: ids, .single hbody (hspans.extend (.push _ _)), ?_⟩
  rw [← added_append hext (.push pool₁ ds), added_push]
  exact (List.perm_append_singleton _ _).symm.trans (hids.append_right _)

/-- A fragment whose number was reserved in front of those of its code. -/
theorem fill (h : Owns L (pool.push []) pool' cs) (hext : Extends (pool.push []) pool') :
    Owns L pool (pool'.setIfInBounds pool.size cs) [callFragment pool.size] := by
  obtain ⟨ids, hspans, hids⟩ := h
  have hsize := hext.size_le
  rw [Array.size_push] at hsize
  have hslot : (pool'.setIfInBounds pool.size cs)[pool.size]? = some cs :=
    Array.getElem?_setIfInBounds_self_of_lt (by omega)
  -- Only the slot that was reserved changes, and none of the numbers is its.
  refine ⟨pool.size :: ids, .single (.plain hslot) (hspans.mono fun id hid => ?_), ?_⟩
  · have hle := le_of_mem_added (hids.mem_iff.1 hid)
    rw [Array.size_push] at hle
    rw [Array.getElem?_setIfInBounds, if_neg (by omega)]
  · rw [added_fill hext]
    exact hids.cons _

end Owns

/-! ## Steps of generation -/

/-- As one command, code spans what it spanned, with a fragment of its own in front or none. -/
theorem spans_of_isOne (h : IsOne pool cs one pool') (hspans : Spans L pool (fragmentCalls cs) ids) :
    Spans L pool' (fragmentCalls one.toList) (added pool pool' ++ ids) := by
  cases h with
  | none =>
    rw [added_self]
    exact hspans
  | one c =>
    rw [added_self]
    exact hspans
  | fragment h =>
    rw [added_push]
    exact .single (.plain Array.getElem?_push_size) (hspans.extend (.push pool cs))

theorem owns_of_branchIf {condition : List Modifier}
    (h : branchIf mnemonic depth labels height label condition pool = .ok ((cs, target), pool')) :
    Owns L pool pool' cs := by
  obtain ⟨l, one, -, -, hone, rfl⟩ := branchIf_eq_ok.1 h
  have hbranch : Spans L pool (fragmentCalls (branchCommands height target l)) [] := by
    rw [fragmentCalls_branchCommands]
    exact .nil
  have hspans := spans_of_isOne hone hbranch
  rw [List.append_nil] at hspans
  refine ⟨_, ?_, .refl _⟩
  rwa [fragmentCalls_map (fragments_foldr_guarded condition)]

theorem owns_of_branchCases {n least : Nat} {table : List UInt32}
    (h : branchCases mnemonic depth labels height n table pool = .ok ((cs, least), pool')) :
    Owns L pool pool' cs := by
  induction table generalizing n cs least pool with
  | nil =>
    obtain ⟨rfl, -, rfl⟩ := branchCases_nil.1 h
    exact .idle rfl
  | cons label table ih =>
    obtain ⟨jump, target, jumps, least', pool₁, hjump, hjumps, rfl, -⟩ := branchCases_cons.1 h
    exact (owns_of_branchIf hjump).append (ih hjumps) (.of_branchIf hjump) (.of_branchCases hjumps)

theorem owns_of_lowerLoop (h : lowerLoop depth b height pool₁ = .ok (step, pool'))
    (hb : Owns L pool pool₁ b.commands) (hext : Extends pool pool₁) (hL : L (depth + 1) b) :
    Owns L pool pool' step.commands := by
  obtain ⟨-, rfl, rfl⟩ | ⟨-, rfl, rfl⟩ := lowerLoop_eq_ok.1 h
  · exact hb.push hext (.loop Array.getElem?_push_size hL)
  · exact hb

/-- The arms of an `if` become fragments behind all that is inside both of them. -/
theorem owns_choose {first second : Block} {pool₃ : Pool}
    (hfirst : Owns L pool pool₁ first.commands) (hsecond : Owns L pool₁ pool₂ second.commands)
    (hext : Extends pool pool₁) (hext' : Extends pool₁ pool₂)
    (hone : IsOne pool₂ first.commands one pool₃) (hother : IsOne pool₃ second.commands other pool') :
    Owns L pool pool' (choose one other) := by
  obtain ⟨ids, hspans, hids⟩ := hfirst
  obtain ⟨ids', hspans', hids'⟩ := hsecond
  have h₃ := Extends.of_isOne hone
  have h₄ := Extends.of_isOne hother
  have harm := (spans_of_isOne hone (hspans.extend hext')).extend h₄
  have harm' := spans_of_isOne hother (hspans'.extend h₃)
  refine ⟨_, fragmentCalls_choose ▸ harm.append harm', ?_⟩
  -- By number the insides of both arms come first, in the trees each arm stands before its own.
  rw [← added_append (hext.trans hext') (h₃.trans h₄), ← added_append hext hext',
    ← added_append h₃ h₄]
  calc (added pool₂ pool₃ ++ ids ++ (added pool₃ pool' ++ ids'))
      |>.Perm (ids ++ added pool₂ pool₃ ++ (ids' ++ added pool₃ pool')) :=
        List.perm_append_comm.append List.perm_append_comm
    _ |>.Perm (ids ++ ids' ++ (added pool₂ pool₃ ++ added pool₃ pool')) := by
        rw [List.append_assoc, List.append_assoc]
        exact (List.perm_append_comm_assoc ..).append_left _
    _ |>.Perm _ := (hids.append hids').append_right _

mutual

theorem owns_of_lowerInstr (scope : Scope) (depth : Nat) (labels : List Label) (height : UInt32) :
    ∀ (i : Instr) {pool pool' : Pool} {step : Step}, LoopsAmong L depth [i] →
      lowerInstr scope depth labels height i pool = .ok (step, pool') →
      Owns L pool pool' step.commands
  | .unreachable, _, _, _, _, h => by
    obtain ⟨rfl, rfl⟩ := lowerInstr_unreachable.1 h
    exact .idle rfl
  -- A block is its body: it makes no fragment of its own.
  | .block type body, _, _, _, hL, h => by
    obtain ⟨arity, b, next, -, -, -, hb, -, rfl⟩ := lowerInstr_block.1 h
    have hbody := owns_of_lowerList scope _ _ _ body (hL.inside List.mem_cons_self) hb
    exact hbody.congr fragmentCalls_closed
  -- A loop makes one fragment, which calls itself and owns what its body owns.
  | .loop type body, _, _, _, hL, h => by
    obtain ⟨arity, b, next, pool₁, -, -, -, hb, -, hloop⟩ := lowerInstr_loop.1 h
    have hbody := owns_of_lowerList scope _ _ _ body (hL.inside List.mem_cons_self) hb
    exact owns_of_lowerLoop hloop hbody (extends_lowerList _ _ _ _ _ hb)
      (hL .here ⟨_, _, _, _, _, hb⟩)
  | .ifElse type consequent alternative, _, _, _, hL, h => by
    obtain ⟨arity, first, second, next, pool₁, pool₂, one, other, pool₃, -, -, -, -, hfirst,
      hsecond, hone, hother, -, rfl⟩ := lowerInstr_ifElse.1 h
    have harm := owns_of_lowerList scope _ _ _ consequent (hL.inside List.mem_cons_self) hfirst
    have harm' := owns_of_lowerList scope _ _ _ alternative
      (hL.inside (List.mem_cons_of_mem _ List.mem_cons_self)) hsecond
    exact (owns_choose harm harm' (extends_lowerList _ _ _ _ _ hfirst)
      (extends_lowerList _ _ _ _ _ hsecond) hone hother).congr fragmentCalls_closed
  | .br label, _, _, _, _, h => by
    obtain ⟨hbr, rfl⟩ := lowerInstr_br.1 h
    obtain ⟨target, l, -, -, rfl⟩ := lowerBr_eq_ok.1 hbr
    exact .idle fragmentCalls_branchCommands
  | .brIf label, _, _, _, _, h => by
    rw [lowerInstr_brIf] at h
    obtain ⟨target, jump, -, hjump, rfl⟩ := lowerBrIf_eq_ok.1 h
    exact (owns_of_branchIf hjump).congr rfl
  -- The fragments of the cases and that of the default are made one after the other.
  | .brTable table default, _, _, _, _, h => by
    rw [lowerInstr_brTable] at h
    obtain ⟨cases, least, jump, target, pool₁, -, hcases, hjump, rfl⟩ := lowerBrTable_eq_ok.1 h
    have hbranches := (owns_of_branchCases (L := L) hcases).append (owns_of_branchIf hjump)
      (.of_branchCases hcases) (.of_branchIf hjump)
    refine hbranches.congr ?_
    rw [List.append_assoc]
    rfl
  | .ret, _, _, _, _, h => by
    obtain ⟨hbr, rfl⟩ := lowerInstr_ret.1 h
    obtain ⟨target, l, -, -, rfl⟩ := lowerBr_eq_ok.1 hbr
    exact .idle fragmentCalls_branchCommands
  | .nop, _, _, _, _, h | .call _, _, _, _, _, h | .callIndirect _ _, _, _, _, _, h
  | .drop, _, _, _, _, h | .select, _, _, _, _, h | .localGet _, _, _, _, _, h
  | .localSet _, _, _, _, _, h | .localTee _, _, _, _, _, h | .globalGet _, _, _, _, _, h
  | .globalSet _, _, _, _, _, h | .load _ _, _, _, _, _, h | .store _ _, _, _, _, _, h
  | .memorySize _, _, _, _, _, h | .memoryGrow _, _, _, _, _, h | .i32Const _, _, _, _, _, h
  | .i64Const _, _, _, _, _, h | .f32Const _, _, _, _, _, h | .f64Const _, _, _, _, _, h
  | .numeric _, _, _, _, _, h => by
    obtain ⟨cs, height', hcs, rfl, rfl⟩ := (lowerInstr_straight rfl).1 h
    exact .idle (fragmentCalls_of_isStraight (isStraight_of_lowerStraight hcs))

/-- **Code owns the fragments that are added with it.** -/
theorem owns_of_lowerList (scope : Scope) (depth : Nat) (labels : List Label) (height : UInt32) :
    ∀ (body : List Instr) {pool pool' : Pool} {b : Block}, LoopsAmong L depth body →
      lowerList scope depth labels height body pool = .ok (b, pool') →
      Owns L pool pool' b.commands
  | [], _, _, _, _, h => by
    obtain ⟨rfl, rfl⟩ := lowerList_nil.1 h
    exact .idle rfl
  | i :: rest, _, _, _, hL, h => by
    obtain ⟨step, pool₁, hstep, hrest⟩ := lowerList_cons.1 h
    have howns := owns_of_lowerInstr scope depth labels height i hL.head hstep
    have hext := extends_lowerInstr scope depth labels height i hstep
    cases hrest with
    | next hflow hr =>
      have hext' := extends_lowerList scope depth labels _ rest hr
      exact howns.append (owns_of_lowerList scope depth labels _ rest hL.tail hr) hext hext'
    | last hflow hnil => exact howns
    | guarded hflow hne hr =>
      have hext' := extends_lowerList scope depth labels _ rest hr
      have hcall := (owns_of_lowerList scope depth labels _ rest hL.tail hr).fill hext'
      refine howns.append (hcall.congr ?_) hext (hext'.fill _)
      rw [fragmentCalls_cons, Command.fragments_guarded]
      rfl
    | stop hflow => exact howns

end

end Compile

end WasmPack
