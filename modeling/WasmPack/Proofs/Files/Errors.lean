/-
  WasmPack.Proofs.Files.Errors

  What can go wrong with a path.  The system answers for every path that it can be
  given; a path with a NUL character cannot be, and leaving out steps or joining
  paths brings no such character in.
-/
import WasmPack.Files.Host
import WasmPack.Proofs.State.Faults
import WasmPack.Proofs.Text.Cutting

namespace WasmPack

namespace Files

/-! ## Paths that the system can be given -/

/-- The text has no NUL character. -/
def NulFree (text : String) : Prop := '\x00' ∉ text.toList

instance (text : String) : Decidable (NulFree text) := by
  unfold NulFree
  infer_instance

namespace NulFree

variable {path path' base part : String}

theorem append (hbase : NulFree base) (hpart : NulFree part) : NulFree (base ++ part) := by
  intro h
  rw [String.toList_append, List.mem_append] at h
  exact h.elim hbase hpart

theorem segment (h : NulFree path) (hs : part ∈ Text.segments '/' path) : NulFree part := by
  obtain ⟨cs, hcs, rfl⟩ := List.mem_map.1 hs
  intro hc
  rw [String.toList_ofList] at hc
  exact h (Text.mem_of_mem_cut hcs hc)

theorem intercalate {parts : List String} (h : ∀ part ∈ parts, NulFree part) :
    NulFree ("/".intercalate parts) := by
  induction parts with
  | nil => decide
  | cons part parts ih =>
    have hparts := ih fun p hp => h p (List.mem_cons_of_mem part hp)
    cases parts with
    | nil => simpa using h part List.mem_cons_self
    | cons next parts =>
      rw [String.intercalate_cons_cons]
      exact ((h part List.mem_cons_self).append (by decide)).append hparts

theorem join (hbase : NulFree base) (hpart : NulFree part) : NulFree (join base part) := by
  unfold Files.join
  split
  · exact hpart
  split
  · exact hbase.append hpart
  · exact (hbase.append (by decide)).append hpart

theorem assemble {start : String} {segments : List String} (hstart : NulFree start)
    (h : ∀ part ∈ segments, NulFree part) : NulFree (assemble start segments) := by
  unfold Files.assemble
  split
  · exact hstart
  · refine append ?_ (intercalate h)
    split
    · decide
    · exact hstart

theorem dropIdle {segments : List String} (h : ∀ part ∈ segments, NulFree part) :
    ∀ part ∈ dropIdle segments, NulFree part := by
  intro part hpart
  have hrest := (List.dropWhile_sublist isIdle).mem (List.mem_reverse.1 hpart)
  exact h part (List.mem_reverse.1 hrest)

theorem parent (h : NulFree path) (hparent : parent? path = some path') : NulFree path' := by
  have hsegments : ∀ part ∈ Text.segments '/' path, NulFree part := fun _ => h.segment
  -- The path begins with a slash, with a dot or with neither; what follows are segments of it.
  unfold parent? at hparent
  split at hparent
  rename_i start body hbody
  have hparts : NulFree start ∧ ∀ part ∈ body, NulFree part := by
    split at hbody
    · rename_i second rest hcut
      cases hbody
      rw [hcut] at hsegments
      exact ⟨by decide, fun part hpart => hsegments part (List.mem_cons_of_mem _ hpart)⟩
    · rename_i rest hcut
      cases hbody
      rw [hcut] at hsegments
      exact ⟨by decide, fun part hpart => hsegments part (List.mem_cons_of_mem _ hpart)⟩
    · cases hbody
      exact ⟨by decide, hsegments⟩
  split at hparent
  · split at hparent
    · cases hparent
      decide
    · cases hparent
  · cases hparent
    exact assemble hparts.1 (dropIdle fun part hpart =>
      dropIdle hparts.2 part ((List.dropLast_sublist _).mem hpart))

theorem ancestor (h : NulFree path) (hmem : path' ∈ ancestors path) : NulFree path' := by
  -- The induction is on the number of steps that may be left out, for every path.
  unfold ancestors at hmem
  generalize path.length = count at hmem
  induction count generalizing path with
  | zero =>
    rw [List.mem_singleton.1 hmem]
    exact h
  | succ count ih =>
    rw [ancestorsUpTo] at hmem
    obtain rfl | hmem := List.mem_cons.1 hmem
    · exact h
    split at hmem
    · rename_i dir hdir
      exact ih (h.parent hdir) hmem
    · cases hmem

end NulFree

/-! ## Errors -/

/-- The error is what the system says about a path that it is given, or that it cannot be given
    the path. -/
def FileError.IsAbout (path : String) : FileError → Prop
  | .nulInPath => ¬NulFree path
  | .system _ => True
  | _ => False

variable {path path' text : String} {e : FileError} {t t' : FileTree}

theorem FileError.IsAbout.of_above (h : e.IsAbout path') (hfree : NulFree path → NulFree path') :
    e.IsAbout path := by
  cases e with
  | nulInPath => exact fun hpath => h (hfree hpath)
  | system errno => trivial
  | _ => exact h.elim

namespace FileTree

theorem isAbout_checkPath (h : checkPath path = .error e) : e.IsAbout path := by
  unfold checkPath at h
  split at h
  · rename_i hnul
    cases h
    exact fun hfree => hfree (List.contains_iff_mem.1 hnul)
  split at h
  · cases h
    trivial
  split at h
  · cases h
    trivial
  · cases h

theorem isAbout_target (h : t.target path = .error e) : e.IsAbout path := by
  obtain h | ⟨-, -, h⟩ := except_bind_eq_error.1 h
  · exact isAbout_checkPath h
  obtain h | ⟨dir, -, h⟩ := except_bind_eq_error.1 h
  · unfold Except.mapError at h
    split at h
    · cases h
      trivial
    · cases h
  split at h
  · cases h
  split at h
  · cases h
  split at h
  · cases h
    trivial
  · cases h

theorem isAbout_write {bytes : Array UInt8} (h : t.write path bytes = .error e) :
    e.IsAbout path := by
  obtain h | ⟨target, -, h⟩ := except_bind_eq_error.1 h
  · exact isAbout_target h
  split at h
  · split at h
    · cases h
      trivial
    · cases h
  · cases h
    trivial

theorem isAbout_makeDir (h : t.makeDir path = .error e) : e.IsAbout path := by
  obtain h | ⟨target, -, h⟩ := except_bind_eq_error.1 h
  · exact isAbout_target h
  split at h
  · cases h
    trivial
  split at h
  · cases h
    trivial
  · cases h

theorem isAbout_ensureDir (h : t.ensureDir path = .error e) : e.IsAbout path := by
  unfold ensureDir at h
  split at h
  · cases h
  · rename_i hmake
    split at h
    · cases h
    · cases h
      exact isAbout_makeDir hmake

/-- What is wrong with one of several directories that come from a path is about the path. -/
theorem isAbout_makeChain {dirs : List String} (hfree : NulFree path → ∀ dir ∈ dirs, NulFree dir)
    (h : t.makeChain dirs = (.error e, t')) : e.IsAbout path := by
  induction dirs generalizing t t' e with
  | nil => cases h
  | cons dir parents ih =>
    have hdir : NulFree path → NulFree dir := fun hpath => hfree hpath dir List.mem_cons_self
    have hparents : NulFree path → ∀ d ∈ parents, NulFree d := fun hpath d hd =>
      hfree hpath d (List.mem_cons_of_mem dir hd)
    unfold makeChain at h
    split at h
    · cases h
    split at h
    · cases h
    -- The parent is missing: what fails is making it, or the second try behind that.
    · split at h
      · rename_i hchain
        cases h
        exact ih hparents hchain
      · split at h
        · cases h
        · rename_i hensure
          cases h
          exact (isAbout_ensureDir hensure).of_above hdir
    · rename_i hmake
      split at h
      · cases h
      · cases h
        exact (isAbout_makeDir hmake).of_above hdir

theorem isAbout_makeDirs (h : t.makeDirs path = (.error e, t')) : e.IsAbout path :=
  isAbout_makeChain (fun hpath _ => hpath.ancestor) h

end FileTree

namespace World

theorem raises_makeDirs (path : String) : Raises (·.IsAbout path) (makeDirs path) := by
  intro w e w' h
  unfold makeDirs at h
  split at h
  · cases h
  · rename_i hmake
    cases h
    exact FileTree.isAbout_makeDirs hmake

theorem raises_writeFile (path text : String) : Raises (·.IsAbout path) (writeFile path text) := by
  intro w e w' h
  unfold writeFile at h
  split at h
  · cases h
  · rename_i hwrite
    cases h
    exact FileTree.isAbout_write hwrite

end World

end Files

end WasmPack
