/-
  WasmPack.Proofs.Pack.Writing

  How far the writing of a pack gets.  The name of a sequence is looked at when
  its file is due, so a name that has no place in a pack stops the writing behind
  everything that was due before, and what was written by then stays.
-/
import WasmPack.Pack.Write
import WasmPack.Proofs.Files.Errors

namespace WasmPack

open Files

/-! ## Refusals -/

/-- The error is that a name has no place in a pack. -/
def Files.FileError.isRefusal : FileError → Bool
  | .unqualified _ => true
  | .escaping _ => true
  | _ => false

namespace Pack

variable {root description name path text : String} {programs : List Program} {e : FileError}
  {w w' : World}

/-- What is wrong with a path is not what is wrong with a name. -/
theorem isRefusal_of_isAbout (h : e.IsAbout path) : e.isRefusal = false := by
  cases e with
  | unqualified name => exact h.elim
  | escaping name => exact h.elim
  | _ => rfl

theorem isRefusal_of_splitName (h : splitName name = .error e) : e.isRefusal = true := by
  unfold splitName at h
  split at h
  · cases h
    rfl
  · dsimp only at h
    split at h
    · cases h
    · cases h
      rfl

theorem isRefusal_of_functionPath (h : functionPath root name = .error e) :
    e.isRefusal = true := by
  obtain h | ⟨q, -, h⟩ := except_bind_eq_error.1 h
  · exact isRefusal_of_splitName h
  · cases h

/-! ## Writing files -/

/-- The directory above a file can be named if the file can be. -/
theorem raises_writeBelow (path text : String) :
    Raises (·.IsAbout path) (writeBelow path text : Work Unit) := by
  unfold writeBelow
  split
  · rename_i dir hdir
    exact .bind (fun w e w' h => (World.raises_makeDirs dir w e w' h).of_above fun hpath =>
      hpath.parent hdir) fun _ => World.raises_writeFile path text
  · exact World.raises_writeFile path text

/-- Every tag has a place. -/
theorem exists_tagPath (root : String) (tag : Tag) :
    ∃ path, tagPath root tag.name = .ok path := by
  cases tag <;> exact ⟨_, rfl⟩

theorem liftExcept_eq_error {α : Type} {x : Except FileError α} :
    (liftExcept x : Work α) w = .error e w' ↔ x = .error e ∧ w' = w := by
  cases x with
  | ok a => exact ⟨(fun h => nomatch h), fun h => nomatch h.1⟩
  | error e' =>
    constructor
    · intro h
      cases h
      exact ⟨rfl, rfl⟩
    · rintro ⟨⟨⟩, rfl⟩
      rfl

/-- A sequence is refused for its name alone, and then nothing is done. -/
theorem writeSequence_refused {p : Program} {s : Sequence} :
    (writeSequence root p s : Work Unit) w = .error e w' ∧ e.isRefusal ↔
      functionPath root (p.nameOf s) = .error e ∧ w' = w := by
  constructor
  · rintro ⟨h, he⟩
    obtain h | ⟨path, w₁, -, h⟩ := work_bind_eq_error.1 h
    · exact liftExcept_eq_error.1 h
    · rw [isRefusal_of_isAbout (raises_writeBelow _ _ _ _ _ h)] at he
      cases he
  · rintro ⟨hpath, rfl⟩
    exact ⟨work_bind_eq_error.2 (.inl (liftExcept_eq_error.2 ⟨hpath, rfl⟩)),
      isRefusal_of_functionPath hpath⟩

/-- A tag is never refused. -/
theorem raises_writeTag (root : String) (tag : Tag) (members : List String) :
    Raises (·.isRefusal = false) (writeTag root tag members : Work Unit) := by
  obtain ⟨path, hpath⟩ := exists_tagPath root tag
  unfold writeTag
  rw [hpath]
  exact .bind (.pure path) fun path =>
    (raises_writeBelow path _).mono fun _ => isRefusal_of_isAbout

/-! ## Writing a pack -/

/-- The sequences of programs, each with its program, in the order in which they are written. -/
def owned (programs : List Program) : List (Program × Sequence) :=
  programs.flatMap fun p => p.sequences.map fun s => (p, s)

/-- Make the directory of a pack, and write the description. -/
def writeStart (root description : String) : Work Unit := do
  Host.makeDirs root
  writeBelow (join root "pack.mcmeta") (metaText description)

/-- Begin a pack, and write some sequences. -/
def writeFront (root description : String) (front : List (Program × Sequence)) : Work Unit := do
  writeStart root description
  front.forM fun (p, s) => writeSequence root p s

/-- Write the tags, and count everything. -/
def writeBack (root : String) (programs : List Program) : Work Summary := do
  let tags := tagEntries programs
  tags.forM fun (tag, members) => writeTag root tag members
  return ⟨(programs.flatMap (·.sequences)).length, tags.length⟩

theorem forM_owned (root : String) (programs : List Program) :
    (programs.forM fun p => p.sequences.forM (writeSequence root p) : Work Unit) =
      (owned programs).forM fun (p, s) => writeSequence root p s := by
  simp only [List.forM_eq_forM]
  induction programs with
  | nil => rfl
  | cons p programs ih =>
    have howned : owned (p :: programs) = p.sequences.map (fun s => (p, s)) ++ owned programs :=
      List.flatMap_cons
    rw [howned, List.forM_append, List.forM_map, List.forM_cons, ih]

/-- A pack is written in these two parts. -/
theorem writePack_eq : (writePack root description programs : Work Summary) =
    writeFront root description (owned programs) >>= fun _ => writeBack root programs := by
  simp only [writePack, writeFront, writeStart, writeBack, forM_owned, bind_assoc]

theorem raises_writeStart (root description : String) :
    Raises (·.isRefusal = false) (writeStart root description) :=
  .bind ((World.raises_makeDirs root).mono fun _ => isRefusal_of_isAbout) fun _ =>
    (raises_writeBelow _ _).mono fun _ => isRefusal_of_isAbout

theorem raises_writeBack (root : String) (programs : List Program) :
    Raises (·.isRefusal = false) (writeBack root programs) :=
  .bind (.forM fun entry _ => raises_writeTag root entry.1 entry.2) fun _ => .pure _

/-- **How far the writing of a pack gets.**  It ends with a refusal if the directory and the
    description can be written, a sequence has a name without a place, and all sequences in front of it
    can be written; these are then in the pack.  Nothing else is refused. -/
theorem writePack_refused : (writePack root description programs : Work Summary) w = .error e w' ∧
    e.isRefusal ↔ ∃ before p s after, owned programs = before ++ (p, s) :: after ∧
      functionPath root (p.nameOf s) = .error e ∧
      writeFront root description before w = .ok () w' := by
  rw [writePack_eq, work_bind_eq_error]
  -- Only the middle part, the sequences, can end with a refusal: the beginning works with paths that
  -- no name has a share in, and the names of tags have places.
  constructor
  · rintro ⟨h | ⟨-, w₁, -, h⟩, he⟩
    · obtain h | ⟨⟨⟩, w₁, hstart, h⟩ := work_bind_eq_error.1 h
      · rw [raises_writeStart root description w e w' h] at he
        cases he
      · obtain ⟨before, ⟨p, s⟩, after, w₂, howned, hbefore, hs⟩ := work_forM_eq_error.1 h
        obtain ⟨hpath, rfl⟩ := writeSequence_refused.1 ⟨hs, he⟩
        exact ⟨before, p, s, after, howned, hpath, work_bind_eq_ok.2 ⟨(), w₁, hstart, hbefore⟩⟩
    · rw [raises_writeBack root programs w₁ e w' h] at he
      cases he
  · rintro ⟨before, p, s, after, howned, hpath, h⟩
    obtain ⟨⟨⟩, w₁, hstart, hbefore⟩ := work_bind_eq_ok.1 h
    obtain ⟨hs, he⟩ := writeSequence_refused.2 ⟨hpath, rfl⟩
    exact ⟨.inl (work_bind_eq_error.2 (.inr ⟨(), w₁, hstart,
      work_forM_eq_error.2 ⟨before, (p, s), after, w', howned, hbefore, hs⟩⟩)), he⟩

/-- A program of two sequences, of which the second has no place in a pack. -/
def climbing : Program :=
  { ns := "x", sequences := [⟨.exportFunc "ok", []⟩, ⟨.exportFunc "../up", []⟩] }

/-- A refusal does not leave the files as they were: a directory is there that was not. -/
theorem writePack_climbing : ∃ w', (writePack "p" "d" [climbing] : Work Summary) {} =
    .error (.escaping "x:../up") w' ∧ w'.tree ≠ ({} : World).tree := by
  have hrun : (match (writePack "p" "d" [climbing] : Work Summary) {} with
      | .ok _ _ => false
      | .error e w' => e = .escaping "x:../up" && w'.tree.isDir "p") = true := by decide +kernel
  split at hrun
  · cases hrun
  · rename_i e w' hwrite
    rw [Bool.and_eq_true, decide_eq_true_eq] at hrun
    obtain ⟨rfl, hdir⟩ := hrun
    refine ⟨w', hwrite, fun htree => ?_⟩
    rw [htree] at hdir
    exact absurd hdir (by decide)

end Pack

end WasmPack
