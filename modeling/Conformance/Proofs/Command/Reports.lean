import Conformance.Proofs.Command.Outcomes

/-!
# Reports read back

A report for programs says as much as the lines for people: its diagnostics can be read back,
and the lines of what is read are those that are printed without `--json`
(`Command.linesOf?_toJson`).

This rests on the files of diagnostics.  The report puts the source in place of a file that is
not known, and the lines put `<input>` there.  So every diagnostic has to name a file, or be
about the source itself (`Diagnostic.IsPlaced`).
-/

namespace Conformance

/-! ## Paths -/

/-- A path with a name that is not empty has some text. -/
theorem Path.text_ne_empty {p : Path} {name : String} (mem : name ∈ p.names)
    (some : name ≠ "") : p.text ≠ "" := by
  have names : p.names.isEmpty = false := by
    cases empty : p.names with
    | nil => simp [empty] at mem
    | cons => rfl
  have joined : "/".intercalate p.names ≠ "" := by
    match is : p.names with
    | [] => simp [is] at mem
    | [only] =>
      rw [is, List.mem_singleton] at mem
      simpa [← mem] using some
    | first :: second :: others =>
      rw [String.intercalate_cons_cons, Ne, String.append_eq_empty_iff, String.append_eq_empty_iff]
      exact fun none => absurd none.1.2 (by decide)
  rw [Path.text, names, Bool.and_false, if_neg Bool.false_ne_true, Ne,
    String.append_eq_empty_iff]
  exact fun none => joined none.2

theorem Text.nil_notMem_consWord {w : List Char} {ws : List (List Char)} (others : [] ∉ ws) :
    [] ∉ consWord w ws := by
  cases w with
  | nil => exact others
  | cons c w => simpa [consWord] using others

theorem Text.nil_notMem_leadingWord (sep : Char → Bool) (cs : List Char) :
    [] ∉ (leadingWord sep cs).2 := by
  induction cs with
  | nil => simp [leadingWord]
  | cons c cs ih =>
    simp only [leadingWord]
    split
    · exact nil_notMem_consWord ih
    · exact ih

/-- No word between separators is empty. -/
theorem Text.nil_notMem_splitWords (sep : Char → Bool) (cs : List Char) :
    [] ∉ splitWords sep cs :=
  nil_notMem_consWord (nil_notMem_leadingWord sep cs)

theorem Path.text_ofText_ne_empty (s : String) : (ofText s).text ≠ "" := by
  cases names : (ofText s).names with
  | nil =>
    rw [text, names]
    by_cases relative : (ofText s).root = ""
    · simp [relative]
    · simp [relative]
  | cons name others =>
    have mem : name ∈ (ofText s).names := by simp [names]
    refine text_ne_empty mem fun none => ?_
    obtain ⟨word, isWord, rfl⟩ := List.mem_map.mp (List.mem_filter.mp mem).1
    have : word = [] := by simpa using none
    exact Text.nil_notMem_splitWords _ _ (this ▸ isWord)

/-! ## Diagnostics -/

namespace Diagnostic

/-- A loose text, read back. -/
def looseOf? : Json → Option LooseText
  | .string t => some t
  | _ => none

/-- A text that may be missing, read back. -/
def textOf? : Json → Option (Option String)
  | .string t => t.encode.toOption.map some
  | .null => some none
  | _ => none

/-- A number that may be missing, read back. -/
def numberOf? : Json → Option (Option Int)
  | .integer n => some (some n)
  | .null => some none
  | _ => none

/-- A list of texts, read back. -/
def textsOf? : Json → Option (List LooseText)
  | .array items => Settings.texts? items
  | _ => none

/-- A diagnostic of a report for programs, read back. -/
def ofJson? (j : Json) : Option Diagnostic := do
  let phase ← (j.get? "phase").bind textOf?
  let message ← (j.get? "message").bind looseOf?
  let code ← (j.get? "code").bind textOf?
  let severity ← (j.get? "severity").bind textOf?
  let file ← (j.get? "file").bind textOf?
  let line ← (j.get? "line").bind numberOf?
  let column ← (j.get? "column").bind numberOf?
  let notes ← (j.get? "notes").bind textsOf?
  some {
    severity := ← severity
    span := ⟨file, line, column, none, none⟩
    message, code, phase, notes }

/-- The diagnostic as far as a report for programs shows it. -/
def shownIn (d : Diagnostic) (source : String) : Diagnostic :=
  { d with
    span := ⟨some ((nonempty? d.span.file).getD source), d.span.line, d.span.column, none, none⟩ }

theorem looseOf?_string (t : LooseText) : looseOf? (.string t) = some t := rfl

theorem textOf?_string (s : String) : textOf? (.string s) = some (some s) := by
  rw [textOf?, LooseText.encode_eq_ok_iff.mpr rfl]
  rfl

theorem textOf?_ofText? (s : Option String) : textOf? (Json.ofText? s) = some s := by
  cases s with
  | none => rfl
  | some s => exact textOf?_string s

theorem numberOf?_jsonInt? (n : Option Int) : numberOf? (jsonInt? n) = some n := by
  cases n <;> rfl

theorem textsOf?_array (texts : List LooseText) :
    textsOf? (.array (texts.map .string)) = some texts := by
  induction texts with
  | nil => rfl
  | cons t texts ih =>
    rw [textsOf?] at ih ⊢
    rw [List.map_cons, Settings.texts?, ih]
    rfl

/-- Everything that a report shows of a diagnostic is read back from it. -/
theorem ofJson?_toJson (d : Diagnostic) (source : String) :
    ofJson? (d.toJson source) = some (d.shownIn source) := by
  simp [ofJson?, toJson, Json.get?, List.lookup_cons, looseOf?_string, textOf?_string,
    textOf?_ofText?, numberOf?_jsonInt?, textsOf?_array, shownIn]

/-- A diagnostic names a file, or is about the source. -/
def IsPlaced (source : String) (d : Diagnostic) : Prop :=
  nonempty? d.span.file ≠ none ∨ d.span.file = some source

theorem nonempty?_eq_some {s : String} {o : Option String} (is : nonempty? o = some s) :
    nonempty? (some s) = some s := by
  obtain ⟨-, some⟩ := Option.filter_eq_some_iff.mp is
  rw [nonempty?, Option.filter_some, if_pos some]

theorem label_shownIn {d : Diagnostic} {source : String} (placed : d.IsPlaced source) :
    (d.shownIn source).span.label = d.span.label := by
  have file : nonempty? (some ((nonempty? d.span.file).getD source)) = nonempty? d.span.file := by
    cases known : nonempty? d.span.file with
    | some f => exact nonempty?_eq_some known
    | none =>
      rcases placed with some | same
      · exact absurd known some
      · rw [same] at known
        exact known
  rw [Span.label, Span.label, shownIn, file]

/-- The lines of a diagnostic say no more than a report shows. -/
theorem human_shownIn {d : Diagnostic} {source : String} (placed : d.IsPlaced source) :
    (d.shownIn source).human = d.human := by
  rw [human, human, label_shownIn placed]
  rfl

end Diagnostic

/-! ## Reports -/

namespace Command

/-- The lines for people of what a report for programs says. -/
def linesOf? : Json → Option String
  | .array items => (items.mapM Diagnostic.ofJson?).map diagnosticLines
  | _ => none

theorem linesOf?_toJson {ds : List Diagnostic} {source : String}
    (placed : ∀ d ∈ ds, d.IsPlaced source) :
    linesOf? (.array (ds.map fun d => d.toJson source)) = some (diagnosticLines ds) := by
  have read : (ds.map fun d => d.toJson source).mapM Diagnostic.ofJson? =
      some (ds.map fun d => d.shownIn source) := by
    clear placed
    induction ds with
    | nil => rfl
    | cons d ds ih => simp [Diagnostic.ofJson?_toJson, ih]
  rw [linesOf?, read, Option.map_some, diagnosticLines, diagnosticLines, List.map_map]
  congr 2
  refine List.map_congr_left fun d mem => ?_
  rw [Function.comp_apply, Diagnostic.human_shownIn (placed d mem)]

end Command

end Conformance
