/-
  WasmPack.Proofs.Validation.Exact

  Heights that fit.  Code generation reckons with 32 bits of each count, and
  nothing but the size of a module keeps the counts below 2³²: as long as they
  are, no sum of heights overflows, heights and labels are the true ones, and a
  branch drops as many values as lie between its label and what it brings.  A module
  of 128 KiB or more may have so many results and calls that code generation ends in
  the middle of an addition.
-/
import WasmPack.Proofs.Validation.Sizes

namespace WasmPack

namespace Wasm

/-- The labels that an instruction inside `depth` constructs may branch to. -/
def Instr.branchesTo (depth : Nat) : Instr → List UInt32
  | .br label | .brIf label => [label]
  | .brTable table default => default :: table
  | .ret => [UInt32.ofNat depth]
  | _ => []

/-- How many values an instruction takes before it branches. -/
def Instr.taken : Instr → Nat
  | .brIf _ | .brTable .. => 1
  | _ => 0

/-- The true numbers fit in 32 bits, wherever there is live code in the body. -/
def Body.HeightsFit (m : Module) (b : Body) : Prop :=
  ∀ pos st, b.standAt? m pos = some st → st.Within (2 ^ 32 - 1)

end Wasm

namespace Compile

open Wasm

variable {c : Context} {st : Stand} {depth : Nat} {labels : List Label} {height results : UInt32}
  {i : Instr} {rest : List Instr} {p : Point} {b : Bound} {n : Nat}

/-- Code generation reckons with the true numbers at a point, for which validation knows them. -/
structure Exact (p : Point) (st : Stand) : Prop where
  height : p.height.toNat = st.height
  labels : ∀ n b, st.bounds[n]? = some b → ∃ l, p.labels[p.depth - n]? = some l ∧
    l.height.toNat = b.base ∧ l.arity.toNat = b.arity ∧
      (l.height + l.arity).toNat = b.base + b.arity
  /-- Branches are set off, and drop what lies between the label and what they bring. -/
  branches : ∀ i rest, p.code = i :: rest → ∀ label ∈ i.branchesTo p.depth, ∃ b target l,
    st.bounds[label.toNat]? = some b ∧ labelAt p.labels p.depth label = .ok (target, l) ∧
      ∀ mnemonic, branch mnemonic (p.height - UInt32.ofNat i.taken) target l =
        .ok (List.replicate (st.height - i.taken - (b.base + b.arity))
          (.remove (.operand (-l.arity.toInt32 - 1))) ++ [.setScore .brDepth (Int32.ofNat target)])

/-! ## Labels -/

/-- The bound as a power, for `omega`. -/
theorem toNat_ofNat (h : n < 2 ^ 32) : (UInt32.ofNat n).toNat = n := UInt32.toNat_ofNat_of_lt' h

/-- The sum that a branch compares with the height. -/
theorem labelOf_sum : (labelOf b).height + (labelOf b).arity = UInt32.ofNat (b.base + b.arity) :=
  (UInt32.ofNat_add _ _).symm

/-- The labels of a point are those of the constructs around it, the innermost last. -/
theorem Tracks.getElem?_labels (h : Tracks c p st) (hb : st.bounds[n]? = some b) :
    n ≤ p.depth ∧ p.labels[p.depth - n]? = some (labelOf b) := by
  have hn : n < st.bounds.length := (List.getElem?_eq_some_iff.1 hb).1
  have hdepth := h.depth
  refine ⟨by omega, ?_⟩
  rw [h.labels, List.getElem?_reverse (by rw [List.length_map]; omega), List.length_map,
    show st.bounds.length - 1 - (p.depth - n) = n by omega, List.getElem?_map, hb]
  rfl

theorem Tracks.labelAt_eq (h : Tracks c p st) {label : UInt32}
    (hb : st.bounds[label.toNat]? = some b) :
    labelAt p.labels p.depth label = .ok (p.depth - label.toNat, labelOf b) :=
  let ⟨hle, hl⟩ := h.getElem?_labels hb
  labelAt_eq_ok.2 ⟨hle, rfl, hl⟩

/-! ## Branches -/

/-- Where an instruction branches, there is a construct, and enough values for it. -/
theorem Tracks.exists_bound (h : Tracks c ⟨depth, labels, height, results, i :: rest⟩ st)
    (hdepth : depth ≤ maxNesting) {label : UInt32} (hlabel : label ∈ i.branchesTo depth) :
    ∃ b, st.bounds[label.toNat]? = some b ∧ b.base + b.arity + i.taken ≤ st.height := by
  have hfind : ∀ arity, st.arities[label.toNat]? = some arity →
      st.base + arity + i.taken ≤ st.height →
        ∃ b, st.bounds[label.toNat]? = some b ∧ b.base + b.arity + i.taken ≤ st.height := by
    intro arity harity hle
    rw [Stand.arities, List.getElem?_map] at harity
    obtain ⟨b, hb, rfl⟩ := Option.map_eq_some_iff.1 harity
    have := h.nested b (List.mem_of_getElem? hb)
    exact ⟨b, hb, by omega⟩
  obtain ⟨s, hs⟩ := h.validate
  cases i with
  | br label =>
    obtain rfl := List.mem_singleton.1 hlabel
    obtain ⟨arity, harity, hle, -⟩ := validateInstr_br.1 hs
    exact hfind arity harity hle
  | brIf label =>
    obtain rfl := List.mem_singleton.1 hlabel
    obtain ⟨arity, harity, hle, -⟩ := of_validate_brIf hs
    exact hfind arity harity hle
  | brTable table default =>
    obtain ⟨arity, harity, hle, -⟩ := of_validate_brTable hs
    exact hfind arity (harity label hlabel) hle
  | ret =>
    obtain rfl := List.mem_singleton.1 hlabel
    obtain ⟨arity, harity, hle, -⟩ := validateInstr_ret.1 hs
    refine hfind arity ?_ hle
    -- The outermost label is the last one, and its number is the depth.
    have hlength : st.arities.length = depth + 1 := by
      rw [Stand.arities, List.length_map]
      exact h.depth
    have hmax : maxNesting = 512 := rfl
    rw [← harity, List.getLast?_eq_getElem?, hlength, toNat_ofNat (by omega)]
    rfl
  | _ => cases hlabel

/-- What a branch drops, if nothing exceeds 32 bits. -/
theorem branch_labelOf (mnemonic : String) (target taken : Nat) {k : Nat}
    (hle : b.base + b.arity + taken ≤ k) (hk : k < 2 ^ 32) :
    branch mnemonic (UInt32.ofNat k - UInt32.ofNat taken) target (labelOf b) =
      .ok (List.replicate (k - taken - (b.base + b.arity))
        (.remove (.operand (-(labelOf b).arity.toInt32 - 1))) ++
          [.setScore .brDepth (Int32.ofNat target)]) := by
  have hheight : UInt32.ofNat k - UInt32.ofNat taken = UInt32.ofNat (k - taken) :=
    (UInt32.ofNat_sub (by omega)).symm
  have hexcess : (UInt32.ofNat (k - taken) - UInt32.ofNat (b.base + b.arity)).toNat =
      k - taken - (b.base + b.arity) := by
    rw [← UInt32.ofNat_sub (by omega), toNat_ofNat (by omega)]
  rw [hheight, branch_eq_ok, branchCommands, labelOf_sum, hexcess]
  refine ⟨?_, rfl⟩
  rw [Label.full, labelOf, toNat_ofNat (by omega), toNat_ofNat (by omega), toNat_ofNat (by omega)]
  omega

/-- What code generation tracks is exact where the true numbers fit. -/
theorem Tracks.exact (h : Tracks c p st) (hw : st.Within (2 ^ 32 - 1))
    (hdepth : p.depth ≤ maxNesting) : Exact p st where
  height := by
    have := hw.height
    rw [h.height, toNat_ofNat (by omega)]
  labels n b hb := by
    have hle := hw.bounds b (List.mem_of_getElem? hb)
    refine ⟨_, (h.getElem?_labels hb).2, toNat_ofNat (by omega), toNat_ofNat (by omega), ?_⟩
    rw [labelOf_sum, toNat_ofNat (by omega)]
  branches i rest hcode label hlabel := by
    obtain ⟨depth, labels, height, results, code⟩ := p
    obtain rfl : code = i :: rest := hcode
    obtain rfl : height = UInt32.ofNat st.height := h.height
    obtain ⟨b, hb, hle⟩ := h.exists_bound hdepth hlabel
    have := hw.height
    exact ⟨b, _, _, hb, h.labelAt_eq hb, fun mnemonic => branch_labelOf mnemonic _ _ hle (by omega)⟩

/-- Numbers of 32 bits are true ones only where those fit. -/
theorem Exact.within (h : Exact p st) : st.Within (2 ^ 32 - 1) where
  height := h.height ▸ Nat.le_sub_one_of_lt p.height.toNat_lt
  bounds b hb := by
    obtain ⟨n, hn⟩ := List.mem_iff_getElem?.1 hb
    obtain ⟨l, -, -, -, hsum⟩ := h.labels n b hn
    exact hsum ▸ Nat.le_sub_one_of_lt (l.height + l.arity).toNat_lt

/-! ## Modules -/

/-- Where code generation comes to, validation knows how things stand. -/
theorem exists_stand {m : Module} (hm : m.Valid) {b : Body} (hb : b ∈ m.bodies) {pos : Position}
    {q : Point} (hv : Visits ⟨.declared m, b.locals⟩ (start b) pos q) :
    ∃ st, (∀ more, b.standAt? m (pos ++ more) = standAt? (m.context b.locals) st q.code more) ∧
      b.heightAt? m pos = some st.height ∧ Tracks (m.context b.locals) q st :=
  Tracks.visits (agrees_declared b.locals) hv (.start (hm.bodies b hb))

/-- Where the true numbers fit, no sum of heights overflows. -/
theorem compileModule_ne_overflow {m : Module} (hm : m.Valid)
    (hfit : ∀ b ∈ m.bodies, b.HeightsFit m) (ns : String) :
    compileModule ns m ≠ .error .overflow := by
  refine avoids_compileModule rfl ns fun b hb =>
    avoids_lowerList (p := start b) rfl nofun fun _ pos q hq => ?_
  obtain ⟨st, hat, -, htracks⟩ := exists_stand hm hb hq
  refine ⟨m.context b.locals, st, agrees_declared b.locals, htracks, ?_, ?_⟩
  · refine hfit b hb pos st ?_
    rw [← List.append_nil pos, hat]
    rfl
  · intro i rest k hcode hk
    have hbehind : b.standAt? m (pos ++ [.behind]) = some ⟨k, st.bounds⟩ := by
      rw [hat, hcode, standAt?_behind hk]
      rfl
    have hle : k ≤ 2 ^ 32 - 1 := (hfit b hb _ _ hbehind).height
    omega

/-- **Heights are exact.**  Wherever code generation comes to in a body of a valid module, the
    place is one in live code, and the height of the operand stack and the labels that it reckons
    with are 32 bits of the true ones.  They are the true ones themselves, and every branch drops as
    many values as it has to, exactly where the true ones fit.

    If they fit everywhere, code generation does not overflow.  They do if the instructions and
    results of a body cannot put 2³² values on the operand stack, and so in every module decoded
    from less than 128 KiB. -/
theorem heights_exact {m : Module} (hm : m.Valid) :
    ((∀ b ∈ m.bodies, b.HeightsFit m) → ∀ ns, compileModule ns m ≠ .error .overflow) ∧
    (∀ b : Body, b.ceiling m < 2 ^ 32 → b.HeightsFit m) ∧
    (∀ bytes, Binary.decode bytes = .ok m → bytes.size < 2 ^ 17 →
      ∀ b ∈ m.bodies, b.ceiling m < 2 ^ 32) ∧
    ∀ spaces, IndexSpaces.ofModule m = .ok spaces → ∀ b ∈ m.bodies, ∀ pos q,
      Visits ⟨spaces, b.locals⟩ (start b) pos q → q.depth ≤ maxNesting →
        ∃ st, b.standAt? m pos = some st ∧ b.heightAt? m pos = some st.height ∧
          Tracks (m.context b.locals) q st ∧ (Exact q st ↔ st.Within (2 ^ 32 - 1)) := by
  refine ⟨compileModule_ne_overflow hm, fun b hceiling pos st hst => ?_,
    fun bytes hbytes hsize b hb => Body.ceiling_lt hbytes hsize hb,
    fun spaces hspaces b hb pos q hvisits hdepth => ?_⟩
  · have hw := Body.within_ceiling hst
    refine ⟨?_, fun bound hbound => ?_⟩
    · exact Nat.le_sub_one_of_lt (Nat.lt_of_le_of_lt hw.height hceiling)
    · exact Nat.le_sub_one_of_lt (Nat.lt_of_le_of_lt (hw.bounds bound hbound) hceiling)
  · obtain ⟨-, rfl⟩ := ofModule_eq_ok.1 hspaces
    obtain ⟨st, hat, hheight, htracks⟩ := exists_stand hm hb hvisits
    have hst : b.standAt? m pos = some st := by
      rw [← List.append_nil pos, hat]
      rfl
    exact ⟨st, hst, hheight, htracks, Exact.within, fun hw => htracks.exact hw hdepth⟩

/-! ## Many results, called many times -/

/-- A function with many results, and one that calls it many times and returns. -/
def floodModule (results calls : Nat) : Module where
  types := [⟨[], List.replicate results .i32⟩, ⟨[], []⟩]
  funcs := [⟨0, [], [.unreachable]⟩, ⟨1, [], List.replicate calls (.call 0) ++ [.ret]⟩]

/-- The body with the calls. -/
def floodBody (calls : Nat) : Body := ⟨0, 0, List.replicate calls (.call 0) ++ [.ret]⟩

section Flood

variable {r : Nat} {arities : List Nat} {base k : Nat} {bounds : List Bound} {scope : Scope}

/-- Calls put their results on the operand stack, and validation counts them. -/
theorem validateInstr_call (hcounts : c.counts? (.call 0) = some ⟨0, r⟩) (hbase : base ≤ k) :
    validateInstr c arities base ⟨k, false⟩ (.call 0) = some ⟨k + r, false⟩ :=
  (validateInstr_straight rfl).2 ⟨_, hcounts, hbase, rfl⟩

theorem validateList_calls (hcounts : c.counts? (.call 0) = some ⟨0, r⟩) (hbase : base ≤ k) :
    validateList c arities base ⟨k, false⟩ (List.replicate n (.call 0) ++ rest) =
      validateList c arities base ⟨k + n * r, false⟩ rest := by
  induction n generalizing k with
  | zero => rw [Nat.zero_mul]; rfl
  | succ n ih =>
    rw [List.replicate_succ, List.cons_append, validateList, validateInstr_call hcounts hbase]
    show validateList c arities base ⟨k + r, false⟩ _ = _
    rw [ih (by omega), Nat.succ_mul, Nat.add_assoc, Nat.add_comm r]

theorem standAt?_calls (hcounts : c.counts? (.call 0) = some ⟨0, r⟩)
    (hbase : Stand.base ⟨k, bounds⟩ ≤ k) :
    standAt? c ⟨k, bounds⟩ (List.replicate n (.call 0) ++ rest) (List.replicate n .behind) =
      some ⟨k + n * r, bounds⟩ := by
  induction n generalizing k with
  | zero => rw [Nat.zero_mul]; cases rest <;> rfl
  | succ n ih =>
    have hbase' : Stand.base ⟨k + r, bounds⟩ ≤ k + r := Nat.le_trans hbase (Nat.le_add_right k r)
    rw [List.replicate_succ, List.replicate_succ, List.cons_append,
      standAt?_behind (validateInstr_call hcounts hbase), ih hbase', Nat.succ_mul, Nat.add_assoc,
      Nat.add_comm r]

/-- What a call of a function without parameters adds to the height. -/
theorem lowerInstr_call_zero (hagrees : Agrees scope c)
    (hcounts : c.counts? (.call 0) = some ⟨0, r⟩) (height : UInt32) :
    lowerInstr scope depth labels height (.call 0) = (do
      let next ← (above height (UInt32.ofNat r) : Gen _)
      return ⟨callSequence (.func 0) 0, .next next⟩) := by
  obtain ⟨entry, hentry, harity⟩ := hagrees.funcAt hcounts
  have hbelow : below "call" height (UInt32.ofNat 0) = .ok height :=
    below_eq_ok.2 ⟨UInt32.zero_le, (UInt32.sub_zero height).symm⟩
  have hstraight : lowerStraight scope height (.call 0) = (do
      return (callSequence (.func 0) 0, ← above height (UInt32.ofNat r))) := by
    simp only [lowerStraight, hentry, Instr.mnemonic, bind, Except.bind, harity, arityOfCounts,
      hbelow]
    rfl
  show (do
    let lowered ← (lowerStraight scope height (.call 0) : Gen _)
    return (⟨lowered.1, .next lowered.2⟩ : Step)) = _
  rw [hstraight]
  cases above height (UInt32.ofNat r) <;> rfl

/-- Code generation passes calls without parameters, as long as the height fits. -/
theorem exists_visits_calls (hagrees : Agrees scope c)
    (hcounts : c.counts? (.call 0) = some ⟨0, r⟩) (hfits : height.toNat + n * r < 2 ^ 32) :
    ∃ next, Visits scope ⟨depth, labels, height, results, List.replicate n (.call 0) ++ rest⟩
      (List.replicate n .behind) ⟨depth, labels, next, results, rest⟩ := by
  induction n generalizing height with
  | zero => exact ⟨height, .here _⟩
  | succ n ih =>
    rw [Nat.succ_mul] at hfits
    have hnext : above height (UInt32.ofNat r) = .ok (height + UInt32.ofNat r) :=
      above_ofNat (by omega)
    have hstep : lowerInstr scope depth labels height (.call 0) #[] =
        .ok (⟨callSequence (.func 0) 0, .next (height + UInt32.ofNat r)⟩, #[]) := by
      rw [lowerInstr_call_zero hagrees hcounts, hnext]
      rfl
    have hrest : (height + UInt32.ofNat r).toNat + n * r < 2 ^ 32 := by
      rw [toNat_add_ofNat (by omega)]
      omega
    obtain ⟨next, hvisits⟩ := ih hrest
    exact ⟨next, .behind hstep rfl hvisits⟩

/-- With so many calls that the height does not fit, code generation overflows. -/
theorem lowerList_calls_overflow (hagrees : Agrees scope c)
    (hcounts : c.counts? (.call 0) = some ⟨0, r⟩) (hr : r < 2 ^ 32)
    (hoverflow : 2 ^ 32 ≤ height.toNat + n * r) (pool : Pool) :
    lowerList scope depth labels height (List.replicate n (.call 0) ++ rest) pool =
      .error .overflow := by
  induction n generalizing height with
  | zero =>
    have := height.toNat_lt
    omega
  | succ n ih =>
    rw [Nat.succ_mul] at hoverflow
    rw [List.replicate_succ, List.cons_append]
    -- Either this call's results do not fit any more, or it is one of the calls behind it.
    by_cases hfits : height.toNat + r < 2 ^ 32
    · have hnext : above height (UInt32.ofNat r) = .ok (height + UInt32.ofNat r) :=
        above_ofNat hfits
      have hstep : lowerInstr scope depth labels height (.call 0) pool =
          .ok (⟨callSequence (.func 0) 0, .next (height + UInt32.ofNat r)⟩, pool) := by
        rw [lowerInstr_call_zero hagrees hcounts, hnext]
        rfl
      refine gen_bind_eq_error.2 (.inr ⟨_, _, hstep, gen_bind_eq_error.2 (.inl (ih ?_))⟩)
      rw [toNat_add_ofNat hfits]
      omega
    · have hnext : above height (UInt32.ofNat r) = .error .overflow := by
        refine above_eq_error.2 ⟨?_, rfl⟩
        rw [toNat_ofNat hr]
        exact Nat.le_of_not_lt hfits
      refine gen_bind_eq_error.2 (.inl ?_)
      rw [lowerInstr_call_zero hagrees hcounts, hnext]
      rfl

theorem bodies_flood : (floodModule r n).bodies = [⟨0, r, [.unreachable]⟩, floodBody n] := by
  have hlength : (List.replicate r ValueType.i32).length = r := List.length_replicate
  exact congrArg (fun r => [⟨0, r, [.unreachable]⟩, floodBody n]) hlength

theorem counts_flood : ((floodModule r n).context 0).counts? (.call 0) = some ⟨0, r⟩ := by
  have hlength : (List.replicate r ValueType.i32).length = r := List.length_replicate
  exact congrArg (fun r => some (Counts.mk 0 r)) hlength

/-- Such a module is valid, whatever the numbers. -/
theorem valid_flood : (floodModule r n).Valid where
  imports _ hi := nomatch hi
  funcs := List.forall_mem_cons.2 ⟨Nat.zero_lt_two, List.forall_mem_singleton.2 Nat.one_lt_two⟩
  bodies := by
    rw [bodies_flood]
    refine List.forall_mem_cons.2 ⟨⟨⟨0, true⟩, rfl, ?_⟩,
      List.forall_mem_singleton.2 ⟨⟨0, true⟩, ?_⟩⟩
    · cases r <;> rfl
    · exact ⟨validateList_calls counts_flood (Nat.zero_le 0), rfl⟩
  data _ hd := nomatch hd
  exports _ he := nomatch he
  start _ h := nomatch h

theorem spaces_flood : IndexSpaces.ofModule (floodModule r n) =
    .ok (IndexSpaces.declared (floodModule r n)) :=
  ofModule_eq_ok.2 ⟨⟨(fun _ hi => nomatch hi), valid_flood.funcs, (fun _ hl => nomatch hl),
    (fun _ he => nomatch he)⟩, rfl⟩

/-- Behind the calls there are the results of them all on the operand stack. -/
theorem standAt?_flood : (floodBody n).standAt? (floodModule r n) (List.replicate n .behind) =
    some ⟨n * r, [⟨0, 0⟩]⟩ := by
  have hbase : Stand.base ⟨0, [⟨0, 0⟩]⟩ ≤ 0 := Nat.le_refl 0
  rw [Body.standAt?, floodBody, standAt?_calls counts_flood hbase, Nat.zero_add]

/-- Code generation comes behind the calls, to the return, if they do not give too much. -/
theorem exists_visits_flood (hfits : n * r < 2 ^ 32) :
    ∃ next, Visits ⟨IndexSpaces.declared (floodModule r n), 0⟩
      (start (floodBody n)) (List.replicate n .behind) ⟨0, [⟨0, 0⟩], next, 0, [.ret]⟩ :=
  exists_visits_calls (agrees_declared 0) counts_flood ((Nat.zero_add _).symm ▸ hfits)

theorem checkTypes_flood : checkTypes (floodModule r n) = .ok () := by
  have htypes : ∀ type ∈ (floodModule r n).types, ∀ t ∈ type.params ++ type.results, t = .i32 := by
    refine List.forall_mem_cons.2 ⟨fun t ht => ?_, List.forall_mem_singleton.2 nofun⟩
    exact List.eq_of_mem_replicate ht
  refine except_bind_eq_ok.2 ⟨(), forM_eq_ok.2 fun (type, i) ht => forM_eq_ok.2 fun t hmem => ?_,
    rfl⟩
  rw [htypes type (List.fst_mem_of_mem_zipIdx ht) t hmem]
  rfl

/-- If the calls give too much, code generation overflows. -/
theorem compileModule_flood (hr : r < 2 ^ 32) (hoverflow : 2 ^ 32 ≤ n * r) :
    compileModule "flood" (floodModule r n) = .error .overflow := by
  have hbody : ∀ pool, lowerFunction (.declared (floodModule r n)) ⟨[], []⟩ []
      (List.replicate n (.call 0) ++ [.ret]) pool = .error .overflow := fun pool =>
    gen_bind_eq_error.2 (.inl (gen_lift_bind_eq_error.2 (.inr ⟨(), rfl,
      lowerList_calls_overflow (agrees_declared 0) counts_flood hr
        ((Nat.zero_add _).symm ▸ hoverflow) pool⟩)))
  have hfuncs : (IndexSpaces.declared (floodModule r n)).funcs.toList.zipIdx =
      [(.defined ⟨[], List.replicate r .i32⟩ [] [.unreachable], 0),
        (.defined ⟨[], []⟩ [] (List.replicate n (.call 0) ++ [.ret]), 1)] := rfl
  refine except_bind_eq_error.2 (.inr ⟨(), by decide, except_bind_eq_error.2 (.inr ⟨(),
    checkTypes_flood, except_bind_eq_error.2 (.inr ⟨_, spaces_flood,
      except_bind_eq_error.2 (.inl (gen_bind_eq_error.2 (.inl ?_)))⟩)⟩)⟩)
  rw [funcSequences, hfuncs, List.mapM_cons, List.mapM_cons]
  -- The first function is accepted, whatever it gives.
  refine gen_bind_eq_error.2 (.inr ⟨_, _, rfl, gen_bind_eq_error.2 (.inl ?_)⟩)
  exact gen_bind_eq_error.2 (.inl (gen_bind_eq_error.2 (.inl (hbody _))))

end Flood

/-- Three results of each of two calls: code generation does not overflow, and a return drops all
    six. -/
theorem heights_exact_flood : (∀ ns, compileModule ns (floodModule 3 2) ≠ .error .overflow) ∧
    ∃ q st, Visits ⟨IndexSpaces.declared (floodModule 3 2), 0⟩ (start (floodBody 2))
      [.behind, .behind] q ∧ q.code = [.ret] ∧ st.height = 6 ∧ Exact q st := by
  obtain ⟨hoverflow, hceiling, -, hexact⟩ := heights_exact (valid_flood (r := 3) (n := 2))
  have hfit : ∀ b ∈ (floodModule 3 2).bodies, b.HeightsFit (floodModule 3 2) := by
    rw [bodies_flood]
    exact List.forall_mem_cons.2 ⟨hceiling _ (by decide), List.forall_mem_singleton.2
      (hceiling _ (by decide))⟩
  obtain ⟨next, hvisits⟩ := exists_visits_flood (r := 3) (n := 2) (by decide)
  have hb : floodBody 2 ∈ (floodModule 3 2).bodies := .tail _ (.head _)
  obtain ⟨st, hst, -, -, hiff⟩ := hexact _ spaces_flood _ hb _ _ hvisits (Nat.zero_le _)
  cases hst.symm.trans standAt?_flood
  exact ⟨hoverflow hfit, _, _, hvisits, rfl, rfl, hiff.2 (hfit _ hb _ _ standAt?_flood)⟩

/-- 2¹⁶ results of each of 2¹⁶ calls: a valid module, in which a height does not fit in 32 bits, and
    code generation overflows. -/
theorem heights_overflow : (floodModule 65536 65536).Valid ∧
    floodBody 65536 ∈ (floodModule 65536 65536).bodies ∧
    (floodBody 65536).heightAt? (floodModule 65536 65536) (List.replicate 65536 .behind) =
      some (2 ^ 32) ∧
    compileModule "flood" (floodModule 65536 65536) = .error .overflow := by
  have hb : floodBody 65536 ∈ (floodModule 65536 65536).bodies := by
    rw [bodies_flood]
    exact .tail _ (.head _)
  refine ⟨valid_flood, hb, ?_, compileModule_flood (by decide) (by decide)⟩
  -- What validation knows is computed for any numbers of results and calls; no list is unfolded.
  have hat : (floodBody 65536).heightAt? (floodModule 65536 65536) (List.replicate 65536 .behind) =
      ((floodBody 65536).standAt? (floodModule 65536 65536) (List.replicate 65536 .behind)).map
        (·.height) := heightAt?_eq_map ⟨0, [⟨0, 0⟩]⟩
  rw [hat, standAt?_flood]
  rfl

end Compile

end WasmPack
