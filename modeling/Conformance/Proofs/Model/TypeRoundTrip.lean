import Conformance.Proofs.Code.PrintedTypes
import Conformance.Proofs.Model.BlockProperty
import Conformance.Proofs.Model.Recorded
import Conformance.Proofs.Token.InkTexts

/-!
# Types as they are read back

A type whose names are ordinary is printed as the type of a constant, and the source is read.
The constant is recorded with the printed text (`SourceFile.read_printedType`).

What is lexed are the tokens of the type up to their places and their layout.  A derivation asks
for no more than the kinds of tokens (`Derives.exists_of_kinds`), so they are those of a type
again.  Their stretch is the printed text, for each of them stands where it is printed, and
nothing of it is squashed.
-/

namespace Conformance

open Text Grammar

namespace Grammar

/-! ## Tokens of the same kinds -/

/-- What is derived is derived with other tokens of the same kinds. -/
theorem Derives.exists_of_kinds {b : Body} {f : Forest} (h : Derives b f) {ts : List Token}
    (same : ts.map Token.kind = f.tokens.map Token.kind) : ∃ g, Derives b g ∧ g.tokens = ts := by
  induction h generalizing ts with
  | @word kinds t mem =>
    obtain ⟨u, rfl, kind⟩ := List.map_eq_singleton_iff.mp same
    exact ⟨.ofToken u, .word (kind ▸ mem), rfl⟩
  | part _ ih =>
    rw [Forest.tokens_under] at same
    obtain ⟨g, derives, tokens⟩ := ih same
    exact ⟨.under _ g, .part derives, by rw [Forest.tokens_under, tokens]⟩
  | seq _ _ ihFirst ihSecond =>
    rw [Forest.tokens_append, List.map_append] at same
    obtain ⟨us, vs, rfl, front, back⟩ := List.map_eq_append_iff.mp same
    obtain ⟨g, first, rfl⟩ := ihFirst front
    obtain ⟨g', second, rfl⟩ := ihSecond back
    exact ⟨g ++ g', .seq first second, Forest.tokens_append g g'⟩
  | left _ ih =>
    obtain ⟨g, derives, tokens⟩ := ih same
    exact ⟨g, .left derives, tokens⟩
  | right _ ih =>
    obtain ⟨g, derives, tokens⟩ := ih same
    exact ⟨g, .right derives, tokens⟩
  | missing =>
    obtain rfl := List.map_eq_nil_iff.mp same
    exact ⟨.nil, .missing, rfl⟩
  | present _ ih =>
    obtain ⟨g, derives, tokens⟩ := ih same
    exact ⟨g, .present derives, tokens⟩
  | none =>
    obtain rfl := List.map_eq_nil_iff.mp same
    exact ⟨.nil, .none, rfl⟩
  | more _ _ ihFirst ihOthers =>
    rw [Forest.tokens_append, List.map_append] at same
    obtain ⟨us, vs, rfl, front, back⟩ := List.map_eq_append_iff.mp same
    obtain ⟨g, first, rfl⟩ := ihFirst front
    obtain ⟨g', others, rfl⟩ := ihOthers back
    exact ⟨g ++ g', .more first others, Forest.tokens_append g g'⟩

theorem exists_typeSyntax_of_kinds {t : TypeSyntax} {ts : List Token}
    (same : ts.map Token.kind = t.tokens.map Token.kind) : ∃ u : TypeSyntax, u.tokens = ts := by
  have tokens : (Forest.under .type t.forest).tokens = t.tokens := by
    rw [Forest.tokens_under, TypeTree.tokens_forest]
  rw [← tokens] at same
  obtain ⟨g, derives, rfl⟩ := (TypeSyntax.derives t).exists_of_kinds same
  exact exists_typeSyntax derives

/-- Only opening braces are marked. -/
theorem faces_eq_map {ls : List Lexeme} (none : ∀ l ∈ ls, l.kind ≠ .leftBrace) :
    faces ls = ls.map fun l => (l.kind, l.text) := by
  induction ls with
  | nil => rfl
  | cons l ls ih =>
    obtain ⟨here, later⟩ := List.forall_mem_cons.mp none
    rw [faces, ih later, beq_false_of_ne here]
    rfl

/-- The lexemes of a printed type are those of a type. -/
theorem fits_type (t : TypeSyntax) : Fits TypeTree.tokens t.lexemes fun u : TypeSyntax =>
    u.tokens.map Token.text = t.lexemes.map Lexeme.text := by
  intro ts ms h
  have braces : ∀ l ∈ t.lexemes, l.kind ≠ .leftBrace := by
    intro l mem brace
    obtain ⟨u, inside, rfl⟩ := List.mem_map.mp mem
    have is := t.isTypeWord u inside
    rw [show u.kind = .leftBrace from brace] at is
    cases is
  rw [Faced, faces_append ms fun l last => braces l (List.mem_of_getLast? last)] at h
  obtain ⟨us, vs, rfl, front, back⟩ := List.map_eq_append_iff.mp h
  rw [faces_eq_map braces] at front
  have kinds : us.map Token.kind = t.tokens.map Token.kind := by
    have firsts := congrArg (List.map Prod.fst) front
    rwa [List.map_map, List.map_map, TypeTree.lexemes, List.map_map] at firsts
  have texts : us.map Token.text = t.lexemes.map Lexeme.text := by
    have seconds := congrArg (List.map Prod.snd) front
    rwa [List.map_map, List.map_map] at seconds
  obtain ⟨u, rfl⟩ := exists_typeSyntax_of_kinds kinds
  exact ⟨u, vs, rfl, back, texts⟩

/-! ## A structure with one constant -/

/-- A structure with one constant of some type. -/
structure TypedConstant where
  /-- The word `struct`. -/
  keyword : Tok .structKw
  /-- The name of the structure. -/
  name : Tok .name
  /-- The brace in front of the constant. -/
  opening : Tok .leftBrace
  /-- The word `let`. -/
  binder : Tok .letKw
  /-- The name of the constant. -/
  constant : Tok .name
  /-- The colon. -/
  colon : Tok .colon
  /-- The type. -/
  type : TypeSyntax
  /-- The brace behind the constant. -/
  closing : Tok .rightBrace

namespace TypedConstant

variable (d : TypedConstant)

/-- The tokens in front of the type. -/
def front : List Token :=
  [d.keyword.val, d.name.val, d.opening.val, d.binder.val, d.constant.val, d.colon.val]

theorem endsText_front : EndsText d.front := by
  intro t last
  obtain rfl : d.colon.val = t := Option.some.inj last
  rw [d.colon.kind_eq]
  rfl

/-- The tokens of the source. -/
def tokens : List Token := d.front ++ d.type.tokens ++ [d.closing.val]

/-- The constant. -/
def property : Property :=
  ⟨⟨[], []⟩, none, ⟨d.binder.val, by rw [d.binder.kind_eq]; rfl⟩,
    ⟨.plain (.name ⟨d.constant.val, d.constant.isIdentifier_name⟩) (some ⟨d.colon, d.type⟩)
      none none, []⟩⟩

/-- The header of the structure. -/
def header : Header :=
  .structured ⟨[], []⟩ ⟨d.keyword.val, by rw [d.keyword.kind_eq]; rfl⟩ d.name none none none

/-- The structure. -/
def row : Items :=
  .nominal d.header d.opening (.leaf (.property d.property) .nil) d.closing .nil

/-- What the source declares. -/
def nominal : Nominal := ⟨d.header.nominalHead, [.property d.property.declaration]⟩

variable {d}

theorem read_row {text : String} (clean : (lex text.toList).stray? = none)
    (tokens : (lex text.toList).delivered = d.tokens) (filename : Option String) :
    SourceFile.read text filename = .ok ⟨[.nominal d.nominal], filename⟩ := by
  have rowTokens : d.row.tokens = d.tokens := by
    simp [row, property, header, Items.tokens, Leaf.tokens, Header.tokens, Property.tokens,
      Head.tokens, optionTokens, Listed.tokens, Binding.tokens, PatternTree.tokens,
      TypeClause.tokens, TypedConstant.tokens, front]
  have stops : Stops Kind.isMemberWord [d.closing.val] := by
    rw [stops_cons, d.closing.kind_eq]
    rfl
  have settled : d.row.forest.Settled [] :=
    Items.settled_nominal_iff.mpr
      ⟨Items.settled_leaf_iff.mpr ⟨Leaf.settled_forest _ stops, trivial⟩, trivial⟩
  refine SourceFile.read_eq_ok.mpr ⟨d.row, clean, ?_, rfl⟩
  rw [tokens, ← rowTokens]
  exact Items.parse_tokens settled

end TypedConstant

/-- The lexemes in front of the type. -/
def constantLexemes : List Lexeme :=
  [⟨.structKw, "struct"⟩, ⟨.name, "S"⟩, ⟨.leftBrace, "\x7b"⟩, ⟨.letKw, "let"⟩, ⟨.name, "x"⟩,
    ⟨.colon, ":"⟩]

/-- The lexemes of a structure with a constant are those of one with a type of the same kinds. -/
theorem exists_typedConstant {t : TypeSyntax} {ts : List Token}
    (h : Faced ts (constantLexemes ++ (t.lexemes ++ [⟨.rightBrace, "\x7d"⟩]))) :
    ∃ d : TypedConstant, ts = d.tokens ∧
      d.front.map Token.text = constantLexemes.map Lexeme.text ∧
      d.type.tokens.map Token.text = t.lexemes.map Lexeme.text := by
  obtain ⟨keyword, us, rfl, h, inKeyword⟩ := fits_tok (by decide) ts _ h
  obtain ⟨name, us, rfl, h, inName⟩ := fits_tok (by decide) us _ h
  obtain ⟨opening, us, rfl, brace, inOpening, h⟩ := h.exists_cons fun _ l head => by
    rw [← Option.some.inj head]
    rfl
  obtain ⟨binder, us, rfl, h, inBinder⟩ := fits_tok (by decide) us _ h
  obtain ⟨constant, us, rfl, h, inConstant⟩ := fits_tok (by decide) us _ h
  obtain ⟨colon, us, rfl, h, inColon⟩ := fits_tok (by decide) us _ h
  obtain ⟨type, us, rfl, h, inType⟩ := fits_type t us _ h
  obtain ⟨closing, us, rfl, h, -⟩ := fits_tok (by decide) us [] h
  obtain rfl := List.map_eq_nil_iff.mp h
  refine ⟨⟨keyword, name, ⟨opening, beq_iff_eq.mpr brace⟩, binder, constant, colon, type, closing⟩,
    ?_, ?_, inType⟩
  · simp [TypedConstant.tokens, TypedConstant.front]
  · have texts : [keyword.text, name.text, opening.text, binder.text, constant.text, colon.text] =
        ["struct", "S", "\x7b", "let", "x", ":"] := by
      rw [inKeyword, inName, inOpening, inBinder, inConstant, inColon]
    exact texts

end Grammar

/-! ## The source with a printed type -/

/-- A structure with a constant whose type is printed. -/
def constantText (t : TypeSyntax) : String := "struct S \x7b let x: " ++ t.print ++ " \x7d"

/-- The text with its parts where tokens end. -/
theorem toList_constantText (t : TypeSyntax) : (constantText t).toList =
    "struct S \x7b let x:".toList ++ (' ' :: t.print.toList ++ " \x7d".toList) := by
  have cut : "struct S \x7b let x: ".toList = "struct S \x7b let x:".toList ++ [' '] := by
    decide +kernel
  have whole : (constantText t).toList =
      ("struct S \x7b let x: " ++ t.print ++ " \x7d").toList := rfl
  rw [whole, String.toList_append, String.toList_append, cut]
  simp only [List.append_assoc, List.cons_append, List.nil_append]

section
variable {t : TypeSyntax} (ordinary : t.IsOrdinary)
include ordinary

theorem lexes_constantText : Lexes (constantText t).toList
    (constantLexemes ++ (t.lexemes ++ [⟨.rightBrace, "\x7d"⟩])) [] := by
  have front : Lead "struct S \x7b let x: " constantLexemes := lead_of_fixed ⟨rfl, rfl⟩
  have type : Passage t.print t.lexemes := t.prints ordinary
  have back : Joint " \x7d" [⟨.rightBrace, "\x7d"⟩] := joint_of_fixed ⟨rfl, rfl⟩
  have behind := (type.append back.tail) [] (Halts.calm (by simp [Halts]))
  have whole := (front.lexes _).append behind
  rwa [← String.toList_append, ← String.append_assoc] at whole

theorem slash_notMem_constantText : '/' ∉ (constantText t).toList := by
  have front : '/' ∉ "struct S \x7b let x:".toList := by decide +kernel
  have type : '/' ∉ ' ' :: t.print.toList :=
    List.not_mem_cons_of_ne_of_not_mem (by decide) (t.spaced_print ordinary).slash
  have back : '/' ∉ " \x7d".toList := by decide
  rw [toList_constantText, List.mem_append, List.mem_append]
  exact not_or.mpr ⟨front, not_or.mpr ⟨type, back⟩⟩

theorem ink_print : ink t.print.toList = t.lexemes.flatMap fun l => ink l.text.toList := by
  have type : Passage t.print t.lexemes := t.prints ordinary
  exact (type [] (Halts.calm (by simp [Halts]))).ink_eq (t.spaced_print ordinary).slash

/-- The tokens of the type stretch over just what is printed. -/
theorem stretch_constantText (clean : (lex (constantText t).toList).stray? = none)
    {d : TypedConstant} (tokens : (lex (constantText t).toList).delivered = d.tokens)
    (front : d.front.map Token.text = constantLexemes.map Lexeme.text)
    (type : d.type.tokens.map Token.text = t.lexemes.map Lexeme.text) :
    Token.stretch d.type.tokens = t.print := by
  obtain ⟨c, cs, chars, begins, -⟩ := t.begins_print rfl ordinary
  have slash := slash_notMem_constantText ordinary
  obtain ⟨_, rest, whole, stand, -⟩ := stand_delivered clean
  rw [tokens, TypedConstant.tokens, List.append_assoc] at stand
  obtain ⟨a, _, rfl, standFront, stand⟩ := stand.exists_append
  obtain ⟨b, z, rfl, standType, -⟩ := stand.exists_append
  rw [whole, List.mem_append, List.mem_append, List.mem_append, not_or, not_or, not_or] at slash
  rw [toList_constantText, List.append_assoc] at whole
  have ahead : a = "struct S \x7b let x:".toList := by
    have texts := congrArg (List.flatMap fun s : String => ink s.toList) front
    rw [List.flatMap_map, List.flatMap_map] at texts
    refine standFront.eq_of_ink d.endsText_front slash.1.1 whole.symm ?_ ?_
    · rw [texts]
      decide +kernel
    · intro c last
      obtain rfl : ':' = c := Option.some.inj last
      rfl
  have here : b = ' ' :: t.print.toList := by
    rw [ahead, List.append_cancel_left_eq, List.append_assoc] at whole
    have texts := congrArg (List.flatMap fun s : String => ink s.toList) type
    rw [List.flatMap_map, List.flatMap_map, ← ink_print ordinary] at texts
    refine standType.eq_of_ink (TypeSyntax.isCut d.type).ends slash.1.2.1 whole.symm texts.symm ?_
    intro e last
    refine (t.spaced_print ordinary).last e ?_
    rwa [chars, List.getLast?_cons_cons, ← chars] at last
  have slash' := slash.1.2.1
  rw [here] at standType slash'
  refine String.toList_inj.mp (Stand.stretch_eq (a := [' ']) standType slash' ?_ ?_ ?_)
  · intro c mem
    obtain rfl := List.mem_singleton.mp mem
    rfl
  · rw [chars]
    intro e head
    exact Option.some.inj head ▸ begins
  · rw [chars]
    exact List.cons_ne_nil c cs

end

/-- A constant whose type is printed is recorded with the printed text. -/
theorem SourceFile.read_printedType {t : TypeSyntax} (ordinary : t.IsOrdinary)
    (filename : Option String) :
    ∃ n p, read (constantText t) filename = .ok ⟨[.nominal n], filename⟩ ∧
      n.head.kind = .structKind ∧ n.head.name = "S" ∧ n.members = [.property p] ∧
      p.keyword = "let" ∧ p.storage = .stored ∧ p.bindings = [⟨some "x", some t.print, none⟩] := by
  obtain ⟨clean, lexemes⟩ := lex_of_lexes (lexes_constantText ordinary)
  have faced := face_delivered clean
  rw [lexemes] at faced
  obtain ⟨d, tokens, front, type⟩ := exists_typedConstant faced
  have stretch := stretch_constantText ordinary clean tokens front type
  have text : d.type.text = t.print := by
    rw [TypeSyntax.text, stretch]
    exact (t.spaced_print ordinary).squash_eq (t.begins_print rfl ordinary)
  have texts : [d.keyword.text, d.name.text, d.opening.text, d.binder.text, d.constant.text,
      d.colon.text] = ["struct", "S", "\x7b", "let", "x", ":"] := front
  simp only [List.cons.injEq, and_true] at texts
  obtain ⟨-, name, -, binder, constant, -⟩ := texts
  refine ⟨d.nominal, d.property.declaration, TypedConstant.read_row clean tokens filename, ?_, name,
    rfl, binder, rfl, ?_⟩
  · show Header.kindOf d.keyword.val.kind = _
    rw [d.keyword.kind_eq]
    rfl
  · show [Variable.mk (some d.constant.text) (some d.type.text) none] = _
    rw [constant, text]

/-- A type that is a name with perhaps generic arguments, and marks behind it. -/
def markedType (first : TypeTree .identifier) (marks : List (Word Kind.isPostfix)) : TypeSyntax :=
  .composed (.marked (.named first .pathEnd) marks) .noConjunct

/-- A name with one generic argument. -/
def nestingName (name : String) (type : TypeSyntax) : TypeTree .identifier :=
  .generic (tokAt .name "" name 0) (tokAt .leftAngle "" "<" 0) type .noArgument
    (tokAt .rightAngle "" ">" 0)

/-- A type with arguments in arguments, two effects, a prefix and a composition. -/
def nestedType : TypeSyntax :=
  let plain (name : String) : TypeTree .identifier := .plain (tokAt .name "" name 0)
  let array := markedType (nestingName "Array" (markedType (plain "Int") []))
    [⟨tokenAt .question "" "?" 0, rfl⟩]
  let dictionary : TypeTree .primary :=
    .dictionary (tokAt .leftSquare "" "[" 0) (markedType (plain "Key") []) (tokAt .colon "" ":" 0)
      (markedType (nestingName "Set" array) []) (tokAt .rightSquare "" "]" 0)
  let prefixed : TypeTree .primary :=
    .prefixed (tokAt .name "" "some" 0) (.named (plain "View") .pathEnd)
  .function (.marked dictionary [])
    [⟨tokenAt .asyncKw "" "async" 0, rfl⟩, ⟨tokenAt .throwsKw "" "throws" 0, rfl⟩]
    (tokAt .arrow "" "->" 0)
    (.composed (.marked prefixed [])
      (.conjunct (tokAt .ampersand "" "&" 0) (.marked (.named (plain "P") .pathEnd) [])
        .noConjunct))

theorem SourceFile.read_nestedType :
    constantText nestedType = "struct S \x7b let x: " ++
      "[Key: Set<Array<Int>?>] async throws -> some View & P \x7d" ∧
    ∃ n p, read (constantText nestedType) none = .ok ⟨[.nominal n], none⟩ ∧
      n.members = [.property p] ∧ p.bindings =
        [⟨some "x", some "[Key: Set<Array<Int>?>] async throws -> some View & P", none⟩] := by
  have ordinary : nestedType.IsOrdinary := by decide +kernel
  have printed : nestedType.print = "[Key: Set<Array<Int>?>] async throws -> some View & P" := by
    decide +kernel
  obtain ⟨n, p, accepted, -, -, members, -, -, bindings⟩ := read_printedType ordinary none
  rw [printed] at bindings
  exact ⟨by decide +kernel, n, p, accepted, members, bindings⟩

end Conformance
