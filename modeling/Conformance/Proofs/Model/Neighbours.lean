import Conformance.Proofs.Grammar.Ends
import Conformance.Proofs.Grammar.Exactness
import Conformance.Proofs.Grammar.MoveDeclarations
import Conformance.Proofs.Grammar.Settled
import Conformance.Proofs.Token.Joining
import Conformance.Proofs.Token.Tiling
import Conformance.Source

/-!
# Declarations and their neighbours

Two sources in a row, with a line feed between them, are read as the declarations of the one
and then those of the other, and the same holds of all that is generated for them
(`SourceFile.read_join`).  Nothing but the next declaration ends an initializer, a signature
or an import, and it does so whatever it begins with: a row stays settled behind another one
that does not end in a dot (`Grammar.parse_append_move`).

It does not suffice that the tokens of both are the same behind each other as alone.
`read_slidingJoin` shows two sources where a comment slides over an operator of the same text,
and the value of a property grows by it.
-/

namespace Conformance

open Grammar

/-! ## Rows behind others -/

/-- A row that is moved behind another one is read behind it. -/
theorem Grammar.parse_append_move {i j : Items} (v : Move) (first : i.forest.Settled [])
    (second : j.forest.Settled []) (off : i.forest.EndsOffDot) :
    parse (i.tokens ++ j.tokens.map v.token) = .done (i ++ j.move v) [] := by
  have settled : (i ++ j.move v).forest.Settled [] := by
    rw [Items.forest_append, Items.forest_move, Forest.settled_append]
    exact ⟨first.behind (.inl off), second.move v⟩
  have tokens : (i ++ j.move v).tokens = i.tokens ++ j.tokens.map v.token := by
    rw [← Items.tokens_forest, Items.forest_append, Forest.tokens_append, Items.tokens_forest,
      Items.tokens_forest, Items.tokens_move]
  rw [← tokens]
  exact Items.parse_tokens settled

/-- No row ends in an opening brace. -/
theorem Grammar.Items.endsOff_leftBrace (i : Items) {t : Token} (last : i.tokens.getLast? = some t) :
    t.kind ≠ .leftBrace := by
  rw [← i.tokens_forest] at last
  exact i.derives.endsOff Rule.endsOff_leftBrace rfl last

/-! ## Tokens behind others -/

/-- Of the tokens of a source only the first begins where it does. -/
theorem start_ne_first {source : List Char} (clean : (lex source).stray? = none) {t u : Token}
    {ts : List Token} (tokens : (lex source).delivered = t :: ts) (mem : u ∈ ts) :
    u.start.offset ≠ t.start.offset := by
  obtain ⟨a, rest, -, stand, -⟩ := stand_delivered clean
  have tiles := tiles_delivered source
  rw [tokens] at stand tiles
  have some : 0 < t.text.length := by
    cases stand with
    | cons layout text others =>
      rw [← String.length_toList]
      exact List.length_pos_iff.mpr text.ne_nil
  have stop := tiles.1.stop
  have further := tiles.2.le_start mem
  omega

/-- The move of tokens some characters and lines further down.  Layout that has gathered is put
in front of the token at an offset. -/
def Grammar.LineMove.below (characters lines : Nat) (gathered : String) (first : Nat) :
    LineMove where
  token t :=
    if t.start.offset = first then
      { t.down characters lines with layout := gathered ++ t.layout }
    else t.down characters lines
  lines := lines
  kind_token t := by split <;> rfl
  text_token t := by split <;> rfl
  location_token t := by split <;> rfl

/-- The tokens of a source are moved behind another one. -/
theorem exists_move {source : List Char} (clean : (lex source).stray? = none)
    (characters lines : Nat) (gathered : String) :
    ∃ v : LineMove, v.lines = lines ∧ v.Keeps (lex source).delivered ∧
      Token.behind gathered ((lex source).delivered.map (Token.down characters lines)) =
        (lex source).delivered.map v.token := by
  cases tokens : (lex source).delivered with
  | nil => exact ⟨.below characters lines gathered 0, rfl, by simp [Move.Keeps], rfl⟩
  | cons t ts =>
    let v := LineMove.below characters lines gathered t.start.offset
    have later : ∀ u ∈ ts, v.token u = u.down characters lines :=
      fun u mem => if_neg (start_ne_first clean tokens mem)
    have here : v.token t = { t.down characters lines with layout := gathered ++ t.layout } :=
      if_pos rfl
    refine ⟨v, rfl, fun u mem => ?_, ?_⟩
    · rw [later u mem]
      rfl
    · rw [List.map_cons, List.map_cons, Token.behind, here, List.map_congr_left later]
      rfl

/-! ## Sources behind others -/

/-- Two sources in a row are read as the declarations of both, the later ones further down by the
lines of the source in front.  Whatever is generated for them are the parts of both. -/
theorem SourceFile.read_join {first second : String} {filename : Option String}
    {f g : SourceFile} (readFirst : read first filename = .ok f)
    (readSecond : read second filename = .ok g)
    (off : ∀ t, (lex first.toList).delivered.getLast? = some t → t.kind ≠ .dot)
    (stay : (lex first.toList).tokens.map Token.mark <+:
      (lex (first ++ "\n" ++ second).toList).tokens.map Token.mark) :
    let lines := first.toList.count '\n' + 1
    ∃ h, read (first ++ "\n" ++ second) filename = .ok h ∧
      h.declarations = f.declarations ++ g.declarations.map (Declaration.down lines) ∧
      ∀ (o : Options) (s : Settings),
        h.units o s = f.units o s ++ (g.units o s).map (GeneratedUnit.down lines) ∧
        h.warnings o = f.warnings o ++ (g.warnings o).map (Diagnostic.down lines) ∧
        renderUnits (h.units o s) = joinBlocks
          ((f.units o s).flatMap GeneratedUnit.blocks ++
            (g.units o s).flatMap GeneratedUnit.blocks) := by
  intro lines
  obtain ⟨i, clean, parsed, rfl⟩ := read_eq_ok.mp readFirst
  obtain ⟨j, clean', parsed', rfl⟩ := read_eq_ok.mp readSecond
  obtain ⟨tokens, settled⟩ := tokens_of_parse parsed
  obtain ⟨tokens', settled'⟩ := tokens_of_parse parsed'
  have both : (first ++ "\n" ++ second).toList = first.toList ++ '\n' :: second.toList := by
    simp [String.toList_append]
  rw [both] at stay
  -- The tokens of both, and the row of both.
  have offBrace : ∀ t, (lex first.toList).delivered.getLast? = some t → t.kind ≠ .leftBrace := by
    rw [← tokens]
    exact fun t => i.endsOff_leftBrace
  obtain ⟨cleanBoth, gathered, delivered⟩ := delivered_join clean clean' stay offBrace
  obtain ⟨v, down, keeps, moved⟩ :=
    exists_move clean' (first.toList.length + 1) lines gathered
  have offDot : i.forest.EndsOffDot := by
    rwa [Forest.EndsOffDot, i.tokens_forest, tokens]
  have read : parse (lex (first.toList ++ '\n' :: second.toList)).delivered =
      .done (i ++ j.move v) [] := by
    rw [delivered, moved, ← tokens, ← tokens']
    exact parse_append_move v settled settled' offDot
  have declarations : (i ++ j.move v).declarations =
      i.declarations ++ j.declarations.map (Declaration.down lines) := by
    rw [Items.declarations_append, Items.declarations_move (tokens' ▸ keeps), down]
  refine ⟨⟨(i ++ j.move v).declarations, filename⟩, ?_, declarations, fun o s => ?_⟩
  · rw [read_eq_ok, both]
    exact ⟨_, cleanBoth, read, rfl⟩
  have units := units_append lines i.declarations j.declarations filename o s
  have warnings := warnings_append lines i.declarations j.declarations filename o
  rw [declarations]
  refine ⟨units, warnings, ?_⟩
  rw [renderUnits, units, List.flatMap_append, List.flatMap_map]
  rfl

/-! ## Sources in a row -/

/-- A type, and a function that only the next declaration ends. -/
def openEndText : String := "struct S \x7b var a: Int \x7d\nfunc f()"

/-- A class behind a comment. -/
def behindCommentText : String := "// D\nclass C \x7b let b = 1 \x7d"

theorem SourceFile.exists_read (text : String) (accepted : (read text none).isOk = true) :
    ∃ f, read text none = .ok f := by
  cases result : read text none with
  | ok f => exact ⟨f, rfl⟩
  | error d =>
    rw [result] at accepted
    cases accepted

theorem SourceFile.read_behindOpenEnd :
    ∃ f g h, read openEndText none = .ok f ∧ read behindCommentText none = .ok g ∧
      read (openEndText ++ "\n" ++ behindCommentText) none = .ok h ∧
      h.declarations = f.declarations ++ g.declarations.map (Declaration.down 2) := by
  obtain ⟨f, readFirst⟩ := exists_read openEndText (by decide +kernel)
  obtain ⟨g, readSecond⟩ := exists_read behindCommentText (by decide +kernel)
  have ends : (lex openEndText.toList).delivered.getLast?.map Token.kind = some .rightParen := by
    decide +kernel
  have off : ∀ t, (lex openEndText.toList).delivered.getLast? = some t → t.kind ≠ .dot := by
    intro t last
    rw [last] at ends
    rw [Option.some.inj ends]
    decide
  have stay : (lex openEndText.toList).tokens.map Token.mark <+:
      (lex (openEndText ++ "\n" ++ behindCommentText).toList).tokens.map Token.mark :=
    List.isPrefixOf_iff_prefix.mp (by decide +kernel)
  obtain ⟨h, readBoth, declarations, -⟩ := SourceFile.read_join readFirst readSecond off stay
  exact ⟨f, g, h, readFirst, readSecond, readBoth, declarations⟩

/-- A property behind whose value stands an operator that would begin a comment. -/
def openCommentText : String := "struct S \x7b let a = 1 /* x \x7d"

/-- A comment that ends the one that would begin there, and the same operator. -/
def closeCommentText : String := "// */ /* x \x7d"

/-- The kinds and texts of the tokens of a text. -/
def tokenTexts (text : String) : List (Kind × String) :=
  (lex text.toList).delivered.map fun t => (t.kind, t.text)

/-- The fields of all types in a text. -/
def fieldsIn (text : String) : List Field :=
  match SourceFile.read text none with
  | .ok f => f.nominals.flatMap fun n => n.fields ""
  | .error _ => []

theorem fieldsIn_of_read {text : String} {f : SourceFile}
    (accepted : SourceFile.read text none = .ok f) :
    fieldsIn text = f.nominals.flatMap fun n => n.fields "" := by
  rw [fieldsIn, accepted]

/-- Two sources in a row with the tokens of both, where a declaration is not that of the source
it is from. -/
theorem SourceFile.read_slidingJoin :
    ∃ f g h, read openCommentText none = .ok f ∧ read closeCommentText none = .ok g ∧
      (∀ t, (lex openCommentText.toList).delivered.getLast? = some t → t.kind ≠ .dot) ∧
      tokenTexts (openCommentText ++ "\n" ++ closeCommentText) =
        tokenTexts openCommentText ++ tokenTexts closeCommentText ∧
      read (openCommentText ++ "\n" ++ closeCommentText) none = .ok h ∧
      h.declarations ≠ f.declarations ++ g.declarations.map (Declaration.down 1) := by
  obtain ⟨f, readFirst⟩ := exists_read openCommentText (by decide +kernel)
  obtain ⟨g, readSecond⟩ := exists_read closeCommentText (by decide +kernel)
  obtain ⟨h, readBoth⟩ := exists_read
    (openCommentText ++ "\n" ++ closeCommentText) (by decide +kernel)
  have ends : (lex openCommentText.toList).delivered.getLast?.map Token.kind = some .rightBrace := by
    decide +kernel
  refine ⟨f, g, h, readFirst, readSecond, ?_, by decide +kernel, readBoth, fun same => ?_⟩
  · intro t last
    rw [last] at ends
    rw [Option.some.inj ends]
    decide
  · have nominals : h.nominals = f.nominals ++ g.nominals.map (Nominal.down 1) := by
      rw [SourceFile.nominals, same]
      exact nominals_append 1 f.declarations g.declarations none
    have fields : fieldsIn (openCommentText ++ "\n" ++ closeCommentText) =
        fieldsIn openCommentText ++ fieldsIn closeCommentText := by
      rw [fieldsIn_of_read readBoth, fieldsIn_of_read readFirst, fieldsIn_of_read readSecond,
        nominals, List.flatMap_append, List.flatMap_map]
      simp only [Nominal.fields_down]
    revert fields
    decide +kernel

end Conformance
