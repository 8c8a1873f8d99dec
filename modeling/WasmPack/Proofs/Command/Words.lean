/-
  WasmPack.Proofs.Command.Words

  The words of a command.  Blanks stand between the pieces that a command is
  written with, and inside none of them but the value or the name at its end, so
  the text of a command is cut into those pieces.
-/
import WasmPack.Proofs.Nbt.Text
import WasmPack.Proofs.Text.Cutting

namespace WasmPack

open Text

variable {ns : String}

/-! ## Pieces without blanks -/

theorem segments_int (n : Int) : segments ' ' (toString n) = [toString n] :=
  segments_of_not_mem (not_mem_toString_int (by decide) (by decide))

/-- The words that mention a register. -/
def Register.words (r : Register) : List String := [r.name, objective]

theorem segments_register (r : Register) : segments ' ' r.render = r.words := by
  obtain ⟨name, hname, -, hblank, -⟩ := r.exists_name
  have hword : ' ' ∉ r.name.toList := by
    rw [hname, List.mem_cons, not_or]
    exact ⟨by decide, hblank⟩
  rw [Register.render, segments_between [] (by decide), segments_of_not_mem hword]
  rfl

theorem segments_range (range : Range) : segments ' ' range.render = [range.render] := by
  have hint : ∀ n : Int, ' ' ∉ n.repr.toList := fun n =>
    @not_mem_toString_int n ' ' (by decide) (by decide)
  refine segments_of_not_mem ?_
  obtain ⟨lo, hi⟩ := range
  cases lo with
  | none => cases hi <;> simp [Range.render, hint]
  | some lo =>
    cases hi with
    | none => simp [Range.render, hint]
    | some hi =>
      rw [Range.render]
      split <;> simp [hint]

/-- The words that mention a path. -/
def Path.words (ns : String) (p : Path) : List String := [p.storage.id ns, p.text]

theorem not_mem_segmentsText {segments : List Segment} {first : Bool}
    (h : ∀ k, .key k ∈ segments → ' ' ∉ k.toList) :
    ' ' ∉ (Path.segmentsText first segments).toList := by
  induction segments generalizing first with
  | nil => exact List.not_mem_nil
  | cons s segments ih =>
    have htail : ∀ {first}, ' ' ∉ (Path.segmentsText first segments).toList :=
      ih fun k hk => h k (List.mem_cons_of_mem s hk)
    cases s with
    | key k =>
      have hk := h k List.mem_cons_self
      cases first <;> simp [Path.segmentsText, htail, hk]
    | index i =>
      have hi : ' ' ∉ i.toInt.repr.toList :=
        @not_mem_toString_int i.toInt ' ' (by decide) (by decide)
      simp [Path.segmentsText, htail, hi]

/-- The keys of the path are words. -/
def Path.IsWorded (p : Path) : Prop := ∀ k ∈ p.keys, IsWord k

theorem segments_path (hns : ' ' ∉ ns.toList) {p : Path} (h : p.IsWorded) :
    segments ' ' (p.render ns) = p.words ns := by
  have hid : ' ' ∉ (p.storage.id ns).toList := by
    cases p.storage with
    | shared =>
      have hshared : ' ' ∉ (sharedNamespace ++ ":__internal").toList := by decide
      exact hshared
    | own => simp [Storage.id, hns]
  have htext : ' ' ∉ p.text.toList := not_mem_segmentsText fun k hk =>
    (h k (List.mem_filterMap.2 ⟨_, hk, rfl⟩)).not_mem (by decide)
  rw [Path.render, segments_between [] (by decide), segments_of_not_mem hid,
    segments_of_not_mem htext]
  rfl

/-! ## Modifiers -/

/-- The words of a condition. -/
def Condition.words : Condition → List String
  | isIn r range => "score" :: r.words ++ ["matches", range.render]
  | compare lhs op rhs => "score" :: lhs.words ++ op.sign :: rhs.words

theorem segments_condition (c : Condition) : segments ' ' c.render = c.words := by
  cases c with
  | isIn r range =>
    rw [Condition.render, segments_between ["matches"] (by decide), segments_front ["score"] (by decide),
      segments_register, segments_range]
    rfl
  | compare lhs op rhs =>
    have hsign : ' ' ∉ op.sign.toList := by cases op <;> decide
    rw [Condition.render, segments_between [] (by decide), segments_between [] (by decide),
      segments_front ["score"] (by decide), segments_register, segments_register,
      segments_of_not_mem hsign]
    rfl

/-- The words of a target. -/
def StoreTarget.words (ns : String) : StoreTarget → List String
  | score r => "score" :: r.words
  | storage path tag => "storage" :: path.words ns ++ [tag.name, "1"]

/-- The words of a modifier. -/
def Modifier.words (ns : String) : Modifier → List String
  | onlyIf c => "if" :: c.words
  | exceptIf c => "unless" :: c.words
  | store kind target => "store" :: kind.name :: target.words ns

theorem segments_target (hns : ' ' ∉ ns.toList) {target : StoreTarget}
    (h : ∀ path tag, target = .storage path tag → path.IsWorded) :
    segments ' ' (target.render ns) = target.words ns := by
  cases target with
  | score r =>
    rw [StoreTarget.render, segments_front ["score"] (by decide), segments_register]
    rfl
  | storage path tag =>
    have htag : ' ' ∉ tag.name.toList := by cases tag <;> decide
    rw [StoreTarget.render, segments_back ["1"] (by decide), segments_between [] (by decide),
      segments_front ["storage"] (by decide), segments_path hns (h path tag rfl),
      segments_of_not_mem htag]
    rfl

theorem segments_modifier (hns : ' ' ∉ ns.toList) {m : Modifier}
    (h : ∀ p ∈ m.paths, p.IsWorded) : segments ' ' (m.render ns) = m.words ns := by
  cases m with
  | onlyIf c =>
    rw [Modifier.render, segments_front ["if"] (by decide), segments_condition]
    rfl
  | exceptIf c =>
    rw [Modifier.render, segments_front ["unless"] (by decide), segments_condition]
    rfl
  | store kind target =>
    have hkind : ' ' ∉ kind.name.toList := by cases kind <;> decide
    have htarget : ∀ path tag, target = .storage path tag → path.IsWorded := by
      rintro path tag rfl
      exact h path List.mem_cons_self
    rw [Modifier.render, segments_between [] (by decide), segments_front ["store"] (by decide),
      segments_of_not_mem hkind, segments_target hns htarget]
    rfl

theorem segments_modifiers (hns : ' ' ∉ ns.toList) {ms : List Modifier}
    (h : ∀ p ∈ ms.flatMap Modifier.paths, p.IsWorded) :
    segments ' ' (renderModifiers ns ms) = "" :: ms.flatMap (Modifier.words ns) := by
  induction ms with
  | nil =>
    have hempty : segments ' ' "" = [""] := by decide
    exact hempty
  | cons m ms ih =>
    rw [List.flatMap_cons, List.forall_mem_append] at h
    have hm : segments ' ' (" " ++ m.render ns) = "" :: m.words ns := by
      rw [segments_front [""] (by decide), segments_modifier hns h.1]
      rfl
    rw [renderModifiers, segments_back _ (ih h.2), hm, List.flatMap_cons, List.cons_append]

/-! ## Commands -/

/-- The word that says how a number is added to a score. -/
def addVerb (delta : Int32) : String :=
  if delta = Int32.minValue then "operation" else if delta < 0 then "remove" else "add"

/-- The words for the number, behind the score. -/
def addOperand (delta : Int32) : List String :=
  if delta = Int32.minValue then "+=" :: (Register.const delta).words
  else if delta < 0 then [toString (-delta.toInt)]
  else [toString delta.toInt]

/-- The words of a command. -/
@[simp] def Command.words (ns : String) : Command → List String
  | setScore r v => ["scoreboard", "players", "set"] ++ r.words ++ [toString v.toInt]
  | addScore r v => ["scoreboard", "players", addVerb v] ++ r.words ++ addOperand v
  | operation target op source =>
    ["scoreboard", "players", "operation"] ++ target.words ++ op.sign :: source.words
  | getScore r => ["scoreboard", "players", "get"] ++ r.words
  | append path value =>
    ["data", "modify", "storage"] ++ path.words ns ++ "append" :: "value" ::
      segments ' ' value.render
  | appendFrom path source =>
    ["data", "modify", "storage"] ++ path.words ns ++ "append" :: "from" :: "storage" ::
      source.words ns
  | setData path value =>
    ["data", "modify", "storage"] ++ path.words ns ++ "set" :: "value" ::
      segments ' ' value.render
  | setFrom path source =>
    ["data", "modify", "storage"] ++ path.words ns ++ "set" :: "from" :: "storage" ::
      source.words ns
  | remove path => ["data", "remove", "storage"] ++ path.words ns
  | getData path => ["data", "get", "storage"] ++ path.words ns
  | call symbol => "function" :: segments ' ' (symbol.qualifiedName ns)
  | callTag tag => ["function", "#" ++ tag.name]
  | addObjective => ["scoreboard", "objectives", "add", objective, "dummy"]
  | test ms => "execute" :: ms.flatMap (Modifier.words ns)
  | execute ms run => "execute" :: ms.flatMap (Modifier.words ns) ++ "run" :: run.words ns

theorem segments_score {s : String} (front : List String) (hs : segments ' ' s = front ++ [""])
    (r : Register) (n : Int) :
    segments ' ' (s ++ r.render ++ " " ++ toString n) = front ++ r.words ++ [toString n] := by
  rw [segments_between [] (by decide), segments_front front hs, segments_register, segments_int,
    List.nil_append]

theorem segments_operation (target : Register) (op : ScoreOp) (source : Register) :
    segments ' ' ("scoreboard players operation " ++ target.render ++ " " ++ op.sign ++ " " ++
      source.render) =
      ["scoreboard", "players", "operation"] ++ target.words ++ op.sign :: source.words := by
  have hsign : ' ' ∉ op.sign.toList := by cases op <;> decide
  rw [segments_between [] (by decide), segments_between [] (by decide),
    segments_front ["scoreboard", "players", "operation"] (by decide), segments_register,
    segments_register, segments_of_not_mem hsign]
  rfl

theorem segments_add (r : Register) (delta : Int32) : segments ' ' (renderAdd r delta) =
    ["scoreboard", "players", addVerb delta] ++ r.words ++ addOperand delta := by
  unfold renderAdd addVerb addOperand
  split
  · rw [segments_between ["+="] (by decide),
      segments_front ["scoreboard", "players", "operation"] (by decide), segments_register,
      segments_register]
    rfl
  split
  · exact segments_score ["scoreboard", "players", "remove"] (by decide) r (-delta.toInt)
  · exact segments_score ["scoreboard", "players", "add"] (by decide) r delta.toInt

theorem segments_modify (hns : ' ' ∉ ns.toList) {path : Path} (h : path.IsWorded)
    (mid : List String) {m t : String} (hm : segments ' ' m = "" :: (mid ++ [""])) :
    segments ' ' ("data modify storage " ++ path.render ns ++ m ++ t) =
      ["data", "modify", "storage"] ++ path.words ns ++ (mid ++ segments ' ' t) := by
  rw [segments_between mid hm, segments_front ["data", "modify", "storage"] (by decide),
    segments_path hns h]

/-- A command is cut into its words. -/
theorem segments_render (hns : ' ' ∉ ns.toList) {c : Command} (h : ∀ p ∈ c.paths, p.IsWorded) :
    segments ' ' (c.render ns) = c.words ns := by
  induction c with
  | setScore r v => exact segments_score ["scoreboard", "players", "set"] (by decide) r v.toInt
  | addScore r v => exact segments_add r v
  | operation target op source => exact segments_operation target op source
  | getScore r =>
    exact (segments_front ["scoreboard", "players", "get"] (by decide)).trans
      (congrArg _ (segments_register r))
  | append path value =>
    exact segments_modify hns (h path List.mem_cons_self) ["append", "value"] (by decide)
  | appendFrom path source =>
    refine (segments_modify hns (h path List.mem_cons_self) ["append", "from", "storage"]
      (by decide)).trans ?_
    rw [segments_path hns (h source (List.mem_cons_of_mem _ List.mem_cons_self))]
    rfl
  | setData path value =>
    exact segments_modify hns (h path List.mem_cons_self) ["set", "value"] (by decide)
  | setFrom path source =>
    refine (segments_modify hns (h path List.mem_cons_self) ["set", "from", "storage"]
      (by decide)).trans ?_
    rw [segments_path hns (h source (List.mem_cons_of_mem _ List.mem_cons_self))]
    rfl
  | remove path =>
    exact (segments_front ["data", "remove", "storage"] (by decide)).trans
      (congrArg _ (segments_path hns (h path List.mem_cons_self)))
  | getData path =>
    exact (segments_front ["data", "get", "storage"] (by decide)).trans
      (congrArg _ (segments_path hns (h path List.mem_cons_self)))
  | call symbol => exact segments_front ["function"] (by decide)
  | callTag tag =>
    have hname : segments ' ' tag.name = [tag.name] := by cases tag <;> decide
    have hfront : segments ' ' "function #" = ["function"] ++ ["#"] := by decide
    exact segments_append hfront hname
  | addObjective =>
    have hwords : segments ' ' ("scoreboard objectives add " ++ objective ++ " dummy") =
        ["scoreboard", "objectives", "add", objective, "dummy"] := by decide
    exact hwords
  | test ms => exact segments_back (s := "execute") _ (segments_modifiers hns h)
  -- The blank before "run" closes the last word of the modifiers.
  | execute ms run ih =>
    rw [Command.paths, List.forall_mem_append] at h
    have hms : segments ' ' ("execute" ++ renderModifiers ns ms) =
        "execute" :: ms.flatMap (Modifier.words ns) :=
      segments_back (s := "execute") _ (segments_modifiers hns h.1)
    refine (segments_between ["run"] (by decide)).trans ?_
    rw [hms, ih h.2]
    rfl

end WasmPack
