/-
  WasmPack.Proofs.Reading.Section

  The readings of the entries of sections, of frames with a size and of code
  accept exactly their productions.
-/
import WasmPack.Proofs.Grammar.Module
import WasmPack.Proofs.Reading.Instr

namespace WasmPack.Binary

open Grammar Wasm

variable {depth : Nat}

/-! ## Entries -/

/-- A reading behind which a value is made of what was read. -/
theorem Reads.bind_pure {α β : Type} {x : Decode α} {G : Production α}
    (hx : Reads depth x G) (g : α → β) :
    Reads depth (x >>= fun a => Pure.pure (g a)) (fun w b => ∃ a, G w a ∧ b = g a) := by
  refine (hx.bind fun a => Reads.pure (g a)).congr fun w b => ?_
  constructor
  · rintro ⟨u, v, a, rfl, ha, rfl, rfl⟩
    rw [List.append_nil]
    exact ⟨a, ha, rfl⟩
  · rintro ⟨a, ha, rfl⟩
    exact ⟨w, [], a, (List.append_nil w).symm, ha, rfl, rfl⟩

theorem Reads.import : Reads depth readImport ImportForm := by
  -- What is read behind the two names, when its first byte is `b`.
  refine (Reads.name.bind fun origin => Reads.name.bind fun member => Reads.offset_bind fun start =>
    Reads.byte.bind fun b => (?_ : Reads depth _ (fun w (i : Import) =>
      ∃ desc, ImportDescForm (b :: w) desc ∧ i = ⟨origin, member, desc⟩))).congr fun w i => ?_
  · split
    · refine (Reads.u32.bind_pure _).congr fun w i => ⟨?_, ?_⟩
      · rintro ⟨n, hn, rfl⟩
        exact ⟨_, .func hn, rfl⟩
      · rintro ⟨_, ⟨hn⟩, rfl⟩
        exact ⟨_, hn, rfl⟩
    · refine (Reads.tableType.bind_pure _).congr fun w i => ⟨?_, ?_⟩
      · rintro ⟨t, ht, rfl⟩
        exact ⟨_, .table ht, rfl⟩
      · rintro ⟨_, ⟨ht⟩, rfl⟩
        rename_i ht
        exact ⟨_, ht, rfl⟩
    · refine (Reads.limits.bind_pure _).congr fun w i => ⟨?_, ?_⟩
      · rintro ⟨l, hl, rfl⟩
        exact ⟨_, .memory hl, rfl⟩
      · rintro ⟨_, ⟨hl⟩, rfl⟩
        rename_i hl
        exact ⟨_, hl, rfl⟩
    · refine (Reads.globalType.bind_pure _).congr fun w i => ⟨?_, ?_⟩
      · rintro ⟨t, ht, rfl⟩
        exact ⟨_, .global ht, rfl⟩
      · rintro ⟨_, ⟨ht⟩, rfl⟩
        rename_i ht
        exact ⟨_, ht, rfl⟩
    · rename_i h0 h1 h2 h3
      refine (Reads.failAt start .malformedImport).congr fun w i => ⟨False.elim, ?_⟩
      rintro ⟨desc, hd, -⟩
      cases hd with
      | func => exact h0 rfl
      | table => exact h1 rfl
      | memory => exact h2 rfl
      | global => exact h3 rfl
  · constructor
    · rintro ⟨u, _, origin, rfl, ho, v, _, member, rfl, hm, _, w, b, rfl, rfl, desc, hd, rfl⟩
      have hform := ImportForm.mk ho hm hd
      rw [List.append_assoc] at hform
      exact hform
    · rintro ⟨ho, hm, hd⟩
      rename_i u v w origin member desc
      obtain ⟨b, w, rfl⟩ : ∃ b t, w = b :: t := by
        cases hd <;> exact ⟨_, _, rfl⟩
      exact ⟨u, v ++ b :: w, origin, List.append_assoc u v _, ho, v, b :: w, member, rfl, hm, [b],
        w, b, rfl, rfl, desc, hd, rfl⟩

theorem Reads.global : Reads 0 readGlobal GlobalForm := by
  refine (Reads.globalType.bind fun type => (Reads.expr 0).bind_pure _).congr fun w g => ?_
  constructor
  · rintro ⟨u, v, type, rfl, ht, init, hi, rfl⟩
    exact .mk ht hi
  · rintro ⟨ht, hi⟩
    exact ⟨_, _, _, rfl, ht, _, hi, rfl⟩

theorem exportKind?_eq_some_iff (b : UInt8) (kind : ExportKind) :
    exportKind? b = some kind ↔ b = exportCode kind := by
  constructor
  · intro h
    unfold exportKind? at h
    split at h <;> cases h <;> rfl
  · rintro rfl
    cases kind <;> rfl

theorem Reads.export : Reads depth readExport ExportForm := by
  refine (Reads.name.bind fun name => Reads.offset_bind fun start => Reads.byte.bind fun b =>
    (?_ : Reads depth _ (fun w (e : Export) => ∃ kind index, b = exportCode kind ∧ U32 w index ∧
      e = ⟨name, kind, index⟩))).congr fun w e => ?_
  · split
    · rename_i kind hk
      rw [exportKind?_eq_some_iff] at hk
      refine (Reads.u32.bind_pure _).congr fun w e => ⟨?_, ?_⟩
      · rintro ⟨index, hi, rfl⟩
        exact ⟨kind, index, hk, hi, rfl⟩
      · rintro ⟨kind', index, hk', hi, rfl⟩
        rw [← exportKind?_eq_some_iff] at hk hk'
        rw [hk, Option.some.injEq] at hk'
        exact ⟨index, hi, by rw [hk']⟩
    · rename_i hk
      refine (Reads.failAt start .malformedExport).congr fun w e => ⟨False.elim, ?_⟩
      rintro ⟨kind, index, hk', -⟩
      rw [← exportKind?_eq_some_iff, hk] at hk'
      cases hk'
  · constructor
    · rintro ⟨u, _, name, rfl, hn, _, v, b, rfl, rfl, kind, index, rfl, hi, rfl⟩
      exact .mk hn hi
    · rintro ⟨hn, hi⟩
      rename_i u v name kind index
      exact ⟨u, _, name, rfl, hn, [exportCode kind], v, _, rfl, rfl, kind, index, rfl, hi, rfl⟩

theorem Reads.elem : Reads 0 readElem ElemForm := by
  refine (Reads.u32.bind fun table => (Reads.expr 0).bind fun offset =>
    (Reads.vec Reads.u32).bind_pure _).congr fun w e => ?_
  constructor
  · rintro ⟨u, _, table, rfl, ht, v, w, offset, rfl, ho, init, hi, rfl⟩
    rw [← List.append_assoc]
    exact .mk ht ho hi
  · rintro ⟨ht, ho, hi⟩
    exact ⟨_, _, _, List.append_assoc _ _ _, ht, _, _, _, rfl, ho, _, hi, rfl⟩

theorem Reads.data : Reads 0 readData DataForm := by
  refine (Reads.u32.bind fun memory => (Reads.expr 0).bind fun offset =>
    Reads.u32.bind fun length => (Reads.bytes length.toNat).bind_pure _).congr fun w d => ?_
  constructor
  · rintro ⟨u, _, memory, rfl, hm, v, _, offset, rfl, ho, s, w, length, rfl, hs, init,
      ⟨rfl, hlen⟩, rfl⟩
    rw [← List.append_assoc]
    exact .mk hm ho ⟨s, w, length, rfl, hs, rfl, hlen.symm⟩
  · rintro ⟨hm, ho, s, w, length, rfl, hs, rfl, hlen⟩
    exact ⟨_, _, _, List.append_assoc _ _ _, hm, _, _, _, rfl, ho, s, _, length, rfl, hs, _,
      ⟨rfl, hlen.symm⟩, rfl⟩

/-! ## Frames with a size -/

/-- What a frame accepts is what its contents accept, with its length in front. -/
theorem Reads.sized {α : Type} {contents : Decode α} {G : Production α}
    (hc : Reads depth contents G) : Reads depth (Binary.sized contents) (Prefixed G) := by
  intro c a c' hv hd
  constructor
  · intro h
    obtain ⟨size, m, hs, h⟩ := bind_eq_ok.1 h
    obtain ⟨u, hu, hpu, rfl⟩ := (Reads.u32 c size m hv hd).1 hs
    obtain ⟨_, m, ⟨⟩, h⟩ := bind_eq_ok.1 h
    obtain ⟨a', m, ha, h⟩ := bind_eq_ok.1 h
    obtain ⟨v, hg, hpv, rfl⟩ := (hc _ a' m (hv.advance hpu) hd).1 ha
    obtain ⟨_, m, ⟨⟩, h⟩ := bind_eq_ok.1 h
    split at h
    · rename_i hstop
      -- The reader stops where the frame does, so what it has read is as long as the frame says.
      cases h
      obtain ⟨t, ht⟩ := hpu
      rw [Cursor.ahead_advance_of_append ht.symm] at hpv
      refine ⟨u ++ v, ⟨u, v, size, rfl, hu, hg, ?_⟩, ?_, ?_⟩
      · simp only [Cursor.advance_pos] at hstop
        omega
      · rw [← ht]
        exact (List.prefix_append_right_inj u).2 hpv
      · rw [Cursor.advance_advance, List.length_append]
    · cases h
  · rintro ⟨w, ⟨u, v, size, rfl, hu, hg, hlen⟩, ⟨t, ht⟩, rfl⟩
    rw [List.append_assoc] at ht
    have hpu : u <+: c.ahead := ⟨v ++ t, ht⟩
    have hpv : v <+: (c.advance u.length).ahead := by
      rw [Cursor.ahead_advance_of_append ht.symm]
      exact List.prefix_append v t
    refine bind_eq_ok.2 ⟨size, _, (Reads.u32 c size _ hv hd).2 ⟨u, hu, hpu, rfl⟩, ?_⟩
    refine bind_eq_ok.2 ⟨_, _, rfl, ?_⟩
    refine bind_eq_ok.2 ⟨a, _, (hc _ a _ (hv.advance hpu) hd).2 ⟨v, hg, hpv, rfl⟩, ?_⟩
    refine bind_eq_ok.2 ⟨_, _, rfl, ?_⟩
    rw [if_pos, Cursor.advance_advance, List.length_append]
    · rfl
    · simp only [Cursor.advance_pos]
      omega

/-! ## Code -/

theorem length_expandRuns (runs : List (Nat × ValueType)) :
    (expandRuns runs).length = (runs.map Prod.fst).sum := by
  rw [expandRuns, List.length_flatMap]
  congr 1
  exact List.map_congr_left fun run _ => List.length_replicate

/-- Runs are read as long as they make at most `maxLocals` locals with those before them. -/
theorem Reads.localGroups (groups : Nat) :
    ∀ (total : Nat) (before : List (Nat × ValueType)), total ≤ maxLocals →
      Reads depth (readLocalGroups groups total before)
        (fun w all => ∃ runs, Items RunForm w runs ∧ runs.length = groups ∧
          total + (expandRuns runs).length ≤ maxLocals ∧ all = before.reverse ++ runs) := by
  induction groups with
  | zero =>
    intro total before htotal
    refine (Reads.pure before.reverse).congr fun w all => ?_
    constructor
    · rintro ⟨rfl, rfl⟩
      exact ⟨[], .nil, rfl, htotal, (List.append_nil _).symm⟩
    · rintro ⟨runs, hr, hlen, -, rfl⟩
      obtain rfl := List.eq_nil_of_length_eq_zero hlen
      cases hr
      exact ⟨rfl, List.append_nil _⟩
  -- The count is checked before the type is read, with all the locals there are up to this run.
  | succ groups ih =>
    intro total before htotal
    refine (Reads.u32.bind fun count => Reads.ite (fun _ => Reads.fail .tooManyLocals) fun hle =>
      Reads.valueType.bind fun type => ih (total + count.toNat) ((count.toNat, type) :: before)
        (Nat.not_lt.1 hle)).congr fun w all => ?_
    have hsum : ∀ (n : Nat) (t : ValueType) (runs : List (Nat × ValueType)),
        (expandRuns ((n, t) :: runs)).length = n + (expandRuns runs).length := by
      intro n t runs
      rw [length_expandRuns, length_expandRuns, List.map_cons, List.sum_cons]
    constructor
    · rintro ⟨u, _, count, rfl, hc,
        (⟨-, ⟨⟩⟩ | ⟨hle, v, w, type, rfl, ht, runs, hr, hlen, hmax, rfl⟩)⟩
      refine ⟨(count.toNat, type) :: runs, ?_, by rw [List.length_cons, hlen], ?_, ?_⟩
      · rw [← List.append_assoc]
        exact .cons (.mk hc ht) hr
      · rw [hsum]
        omega
      · rw [List.reverse_cons, List.append_assoc, List.singleton_append]
    · rintro ⟨runs, hr, hlen, hmax, rfl⟩
      cases hr with
      | nil => cases hlen
      | cons hrun hr =>
        obtain ⟨hc, ht⟩ := hrun
        rename_i w runs u v count type
        rw [hsum] at hmax
        rw [List.length_cons, Nat.add_right_cancel_iff] at hlen
        refine ⟨u, v ++ w, count, List.append_assoc u v w, hc, .inr ⟨by omega, v, w, type, rfl, ht,
          runs, hr, hlen, by omega, ?_⟩⟩
        rw [List.reverse_cons, List.append_assoc, List.singleton_append]

theorem Reads.locals : Reads depth readLocals LocalsForm := by
  refine (Reads.u32.bind fun groups =>
    (Reads.localGroups groups.toNat 0 [] (Nat.zero_le _)).bind_pure _).congr fun w locals => ?_
  constructor
  · rintro ⟨u, v, groups, rfl, hu, all, ⟨runs, hr, hlen, hmax, hall⟩, rfl⟩
    obtain rfl : all = runs := hall
    rw [Nat.zero_add] at hmax
    exact ⟨all, ⟨u, v, groups, rfl, hu, hr, hlen.symm⟩, rfl, hmax⟩
  · rintro ⟨runs, ⟨u, v, groups, rfl, hu, hr, hlen⟩, rfl, hmax⟩
    rw [← Nat.zero_add (expandRuns runs).length] at hmax
    exact ⟨u, v, groups, rfl, hu, runs, ⟨runs, hr, hlen.symm, hmax, rfl⟩, rfl⟩

theorem Reads.code : Reads 0 readCode (Prefixed FuncCodeForm) := by
  refine Reads.sized ((Reads.locals.bind fun locals => (Reads.expr 0).bind_pure _).congr
    fun w code => ?_)
  constructor
  · rintro ⟨u, v, locals, rfl, hl, body, hb, rfl⟩
    exact .mk hl hb
  · rintro ⟨hl, hb⟩
    exact ⟨_, _, _, rfl, hl, _, hb, rfl⟩

end WasmPack.Binary
