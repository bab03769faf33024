import Conformance.Code.Extension
import Conformance.Proofs.Code.PrintedStatements
import Conformance.Proofs.Grammar.FitsRow

/-!
# Printed members

The members of generated extensions are firm rows: enumerations of keys, functions, initializers
and properties.  Of the declarations that are read from them only the keys of the outer store
count (`Member.outerCases?`).

The header of a function settles its phrase up to the body, and of the body only the brackets
count, so a body may be whatever statements print.
-/

namespace Conformance

open Pattern Lexical Grammar

/-! ## The outer keys -/

/-- The cases of a member. -/
def Member.elements : Member → List CaseElement
  | .cases c => c.elements
  | _ => []

/-- The cases of a member that is the enumeration of the outer keys. -/
def Member.outerCases? : Member → Option (List CaseElement)
  | .nominal head members =>
    if head.kind = .enumKind ∧ head.name = outerKeys then some (members.flatMap Member.elements)
    else none
  | _ => none

theorem outerCases?_leaf (l : Leaf) : l.member.outerCases? = none := by
  cases l <;> rfl

/-- Lines are those of a firm row of members, with some enumerations of the outer keys. -/
def Declares (unit : String) (lines : List Line) (keys : List (List CaseElement)) : Prop :=
  ∃ ls, AllWoven (lines.map (Line.render unit)) ls [] ∧ IsMild ls ∧
    FitsRow ls fun i => i.members.filterMap Member.outerCases? = keys

namespace Declares

variable {unit : String} {lines more : List Line} {keys others : List (List CaseElement)}

theorem nil : Declares unit [] [] := by
  refine ⟨[], .nil, by simp [IsMild], fits_empty.imp ?_⟩
  rintro i rfl
  rfl

theorem blank : Declares unit [.blank] [] := by
  obtain ⟨ls, woven, mild, fits⟩ : Declares unit [] [] := nil
  cases woven
  exact ⟨[], .single .empty, mild, fits⟩

theorem append (first : Declares unit lines keys) (second : Declares unit more others) :
    Declares unit (lines ++ more) (keys ++ others) := by
  obtain ⟨ls, woven, mild, fits⟩ := first
  obtain ⟨ms, further, mild', fits'⟩ := second
  refine ⟨ls ++ ms, by simpa using woven.append further, mild.append mild',
    (fits.append fits').imp ?_⟩
  rintro k ⟨i, j, seen, seen', rfl⟩
  rw [Items.members_append, List.filterMap_append, seen, seen']

/-- Members with a blank line between each two. -/
theorem separated {α : Type} {print : α → List Line} {keys : α → List (List CaseElement)}
    {as : List α} (each : ∀ a ∈ as, Declares unit (print a) (keys a)) :
    Declares unit (Extension.separated (as.map print)) (as.flatMap keys) := by
  induction as with
  | nil => exact nil
  | cons a as ih =>
    obtain ⟨here, later⟩ := List.forall_mem_cons.mp each
    cases as with
    | nil => simpa [Extension.separated] using here
    | cons b as => exact here.append (blank.append (ih later))

end Declares

/-! ## Headers of functions -/

/-- A text is the header of a declaration with a body, whatever the body is. -/
def IsHeader (s : String) : Prop :=
  ∃ l ls, Woven s (l :: ls ++ [⟨.leftBrace, "\x7b"⟩]) [] ∧ l.opensObserver = false ∧
    ∀ body, IsLevel (body.map Lexeme.kind) → IsMild body →
      Fits Leaf.tokens (l :: ls ++ braces body) Leaf.IsFirm

/-- The lexemes in front of a member that other modules may use. -/
def accessLexemes (isPublic : Bool) : List Lexeme :=
  if isPublic then [⟨.publicKw, "public"⟩] else []

theorem lead_access (isPublic : Bool) : Lead (accessWord isPublic) (accessLexemes isPublic) := by
  cases isPublic with
  | false => exact lead_of_blanks (by simp [accessWord])
  | true => exact lead_of_fixed ⟨rfl, rfl⟩

theorem isModifier_access (isPublic : Bool) :
    ∀ l ∈ accessLexemes isPublic, l.kind.isModifier = true := by
  cases isPublic <;> decide

/-- A header behind the word for its access. -/
theorem IsHeader.of_access {isPublic : Bool} {s : String} {l : Lexeme} {ls : List Lexeme}
    (woven : Woven s (l :: ls ++ [⟨.leftBrace, "\x7b"⟩]) []) (mild : l.opensObserver = false)
    (fits : ∀ body, IsLevel (body.map Lexeme.kind) → IsMild body →
      Fits Leaf.tokens (accessLexemes isPublic ++ (l :: ls ++ braces body)) Leaf.IsFirm) :
    IsHeader (accessWord isPublic ++ s) := by
  have whole := (lead_access isPublic).append_woven woven
  cases isPublic with
  | false => exact ⟨l, ls, whole, mild, fits⟩
  | true => exact ⟨_, l :: ls, whole, rfl, fits⟩

/-- Parameters in parentheses, with words behind them. -/
def parameters (body words : List Lexeme) : List Lexeme :=
  (⟨.leftParen, "("⟩ :: body ++ [⟨.rightParen, ")"⟩]) ++ words

theorem isSignature_parameters {body words : List Lexeme} (level : IsLevel (body.map Lexeme.kind))
    (each : ∀ l ∈ words, l.kind.isSignatureWord = true) : IsSignature (parameters body words) := by
  refine .group level ?_
  induction words with
  | nil => exact .nil
  | cons l words ih =>
    obtain ⟨here, later⟩ := List.forall_mem_cons.mp each
    exact .word here (ih later)

theorem isHeader_encode (isPublic : Bool) :
    IsHeader (accessWord isPublic ++ "func encode(to encoder: Encoder) throws \x7b") := by
  have woven : Woven "func encode(to encoder: Encoder) throws \x7b"
      (⟨.funcKw, "func"⟩ :: ⟨.name, "encode"⟩ :: parameters
        [⟨.name, "to"⟩, ⟨.name, "encoder"⟩, ⟨.colon, ":"⟩, ⟨.name, "Encoder"⟩]
        [⟨.throwsKw, "throws"⟩] ++ [⟨.leftBrace, "\x7b"⟩]) [] :=
    woven_of_fixed ⟨rfl, rfl⟩
  exact .of_access woven rfl fun body level mild => fits_function _ _ (isModifier_access isPublic) rfl
    (isSignature_parameters (by decide) (by decide)) level mild

theorem isHeader_hash (isPublic : Bool) :
    IsHeader (accessWord isPublic ++ "func hash(into hasher: inout Hasher) \x7b") := by
  have woven : Woven "func hash(into hasher: inout Hasher) \x7b"
      (⟨.funcKw, "func"⟩ :: ⟨.name, "hash"⟩ :: parameters
        [⟨.name, "into"⟩, ⟨.name, "hasher"⟩, ⟨.colon, ":"⟩, ⟨.name, "inout"⟩, ⟨.name, "Hasher"⟩]
        [] ++ [⟨.leftBrace, "\x7b"⟩]) [] :=
    woven_of_fixed ⟨rfl, rfl⟩
  exact .of_access woven rfl fun body level mild => fits_function _ _ (isModifier_access isPublic) rfl
    (isSignature_parameters (by decide) (by decide)) level mild

theorem isHeader_decode (isPublic convenience : Bool) :
    IsHeader (accessWord isPublic ++ ((if convenience then "convenience init" else "init") ++
      "(from decoder: Decoder) throws" ++ " \x7b")) := by
  have signature : IsSignature (parameters
      [⟨.name, "from"⟩, ⟨.name, "decoder"⟩, ⟨.colon, ":"⟩, ⟨.name, "Decoder"⟩]
      [⟨.throwsKw, "throws"⟩]) := isSignature_parameters (by decide) (by decide)
  have firm {ls : List Lexeme} {sees : Leaf → Prop}
      (fits : Fits Leaf.tokens ls fun l => sees l ∧ l.IsFirm) : Fits Leaf.tokens ls Leaf.IsFirm :=
    fun ts ms h => (fits ts ms h).imp fun _ => Exists.imp fun _ seen => ⟨seen.1, seen.2.1, seen.2.2.2⟩
  cases convenience with
  | false =>
    have woven : Woven "init(from decoder: Decoder) throws \x7b" (⟨.initKw, "init"⟩ :: parameters
        [⟨.name, "from"⟩, ⟨.name, "decoder"⟩, ⟨.colon, ":"⟩, ⟨.name, "Decoder"⟩]
        [⟨.throwsKw, "throws"⟩] ++ [⟨.leftBrace, "\x7b"⟩]) [] :=
      woven_of_fixed ⟨rfl, rfl⟩
    exact .of_access woven rfl fun body level mild =>
      firm (fits_constructor "init" (isModifier_access isPublic) signature level mild)
  | true =>
    have woven : Woven "convenience init(from decoder: Decoder) throws \x7b"
        (⟨.convenienceKw, "convenience"⟩ :: (⟨.initKw, "init"⟩ :: parameters
          [⟨.name, "from"⟩, ⟨.name, "decoder"⟩, ⟨.colon, ":"⟩, ⟨.name, "Decoder"⟩]
          [⟨.throwsKw, "throws"⟩]) ++ [⟨.leftBrace, "\x7b"⟩]) [] :=
      woven_of_fixed ⟨rfl, rfl⟩
    have modifiers : ∀ l ∈ accessLexemes isPublic ++ [⟨.convenienceKw, "convenience"⟩],
        l.kind.isModifier = true := by
      cases isPublic <;> decide
    refine .of_access woven rfl fun body level mild => ?_
    have fits := firm (fits_constructor "init" modifiers signature level mild)
    rwa [List.append_assoc] at fits

theorem isHeader_equals (isPublic : Bool) {type : String} (named : IsTypeName type) :
    IsHeader (accessWord isPublic ++ ("static func ==(lhs: " ++ type ++ ", rhs: " ++ type ++
      ") -> Bool" ++ " \x7b")) := by
  have piece := named.piece
  have first : Lead "static func ==(lhs: " [⟨.staticKw, "static"⟩, ⟨.funcKw, "func"⟩,
      ⟨.operator, "=="⟩, ⟨.leftParen, "("⟩, ⟨.name, "lhs"⟩, ⟨.colon, ":"⟩] :=
    lead_of_fixed ⟨rfl, rfl⟩
  have second : Lead ", rhs: " [⟨.comma, ","⟩, ⟨.name, "rhs"⟩, ⟨.colon, ":"⟩] :=
    lead_of_fixed ⟨rfl, rfl⟩
  have third : Lead ") -> Bool \x7b" [⟨.rightParen, ")"⟩, ⟨.arrow, "->"⟩, ⟨.name, "Bool"⟩,
      ⟨.leftBrace, "\x7b"⟩] :=
    lead_of_fixed ⟨rfl, rfl⟩
  have whole := first.append_piece (piece.append (second.append_piece
    (piece.append third.piece (by simp [Halts, halts, isMark, Kind.ofMark?])))
    (by simp [Halts, halts, isMark, Kind.ofMark?]))
  have text : "static func ==(lhs: " ++ (type ++ (", rhs: " ++ (type ++ ") -> Bool \x7b"))) =
      "static func ==(lhs: " ++ type ++ ", rhs: " ++ type ++ ") -> Bool" ++ " \x7b" := by
    have last : ") -> Bool \x7b" = ") -> Bool" ++ " \x7b" := rfl
    simp only [last, String.append_assoc]
  rw [text] at whole
  let inside : List Lexeme := [⟨.name, "lhs"⟩, ⟨.colon, ":"⟩, ⟨.name, type⟩, ⟨.comma, ","⟩,
    ⟨.name, "rhs"⟩, ⟨.colon, ":"⟩, ⟨.name, type⟩]
  have signature : IsSignature (parameters inside [⟨.arrow, "->"⟩, ⟨.name, "Bool"⟩]) :=
    isSignature_parameters rfl (by decide)
  have woven : Woven _ (⟨.staticKw, "static"⟩ :: (⟨.funcKw, "func"⟩ :: ⟨.operator, "=="⟩ ::
      parameters inside [⟨.arrow, "->"⟩, ⟨.name, "Bool"⟩]) ++ [⟨.leftBrace, "\x7b"⟩]) [] :=
    whole.woven
  have modifiers : ∀ l ∈ accessLexemes isPublic ++ [⟨.staticKw, "static"⟩],
      l.kind.isModifier = true := by
    cases isPublic <;> decide
  refine .of_access woven rfl fun body level mild => ?_
  have fits := fits_function ⟨.operator, "=="⟩ "func" modifiers rfl signature level mild
  rwa [List.append_assoc] at fits

/-- The header of a property with a block. -/
theorem isHeader_property (isPublic : Bool) (name type : String) (member : IsMemberName name)
    (named : IsTypeName type) :
    IsHeader (accessWord isPublic ++ ("var " ++ name ++ ": " ++ type ++ " \x7b")) := by
  have first : Lead "var " [⟨.varKw, "var"⟩] := lead_of_fixed ⟨rfl, rfl⟩
  have second : Lead ": " [⟨.colon, ":"⟩] := lead_of_fixed ⟨rfl, rfl⟩
  have third : Lead " \x7b" [⟨.leftBrace, "\x7b"⟩] := lead_of_fixed ⟨rfl, rfl⟩
  have whole := first.append_piece (member.plain.piece.append (second.append_piece
    (named.piece.append third.piece (by simp [Halts, halts, isSpace])))
    (by simp [Halts, halts, isMark, Kind.ofMark?]))
  simp only [← String.append_assoc] at whole
  have woven : Woven _ (⟨.varKw, "var"⟩ :: [wordLexeme name, ⟨.colon, ":"⟩, ⟨.name, type⟩] ++
    [⟨.leftBrace, "\x7b"⟩]) [] := whole.woven
  have identifier : (wordLexeme name).kind.isIdentifier = true := member.identifier
  exact .of_access woven rfl fun body level mild =>
    fits_property (isModifier_access isPublic) identifier level mild

/-- What is put in for the header of a function. -/
def Method.Prints : Method → Prop
  | encode | decode _ | hash | variantName => True
  | equals type => IsTypeName type
  | stableHash property => IsMemberName property

theorem Method.Prints.isHeader {m : Method} (h : m.Prints) (isPublic : Bool) :
    IsHeader (m.header (accessWord isPublic) ++ " \x7b") := by
  cases m with
  | encode =>
    have header : IsHeader _ := isHeader_encode isPublic
    simpa [Method.header, String.append_assoc] using header
  | decode convenience =>
    have header : IsHeader _ := isHeader_decode isPublic convenience
    simpa [Method.header, String.append_assoc] using header
  | equals type =>
    have header : IsHeader _ := isHeader_equals isPublic h
    simpa [Method.header, String.append_assoc] using header
  | hash =>
    have header : IsHeader _ := isHeader_hash isPublic
    simpa [Method.header, String.append_assoc] using header
  | variantName =>
    have header : IsHeader _ := isHeader_property false nameProperty "String"
      (by decide) (by decide)
    simpa [Method.header, accessWord, String.append_assoc] using header
  | stableHash property =>
    have header : IsHeader _ := isHeader_property isPublic property "Int" h
      (by decide)
    simpa [Method.header, String.append_assoc] using header

/-! ## Functions and keys -/

theorem piece_commaList {items : List String} (plain : ∀ s ∈ items, IsPlainName s) :
    Piece (commaList items) (commaLexemes items) := by
  cases items with
  | nil => exact piece_empty
  | cons s items =>
    induction items generalizing s with
    | nil => simpa [commaList, commaLexemes, wordLexeme] using (plain s List.mem_cons_self).piece
    | cons t items ih =>
      obtain ⟨here, others⟩ := List.forall_mem_cons.mp plain
      have comma : Lead ", " [⟨.comma, ","⟩] := lead_of_fixed ⟨rfl, rfl⟩
      have both := here.piece.append (comma.append_piece (ih t others))
        (by simp [Halts, halts, isMark, Kind.ofMark?])
      have text : commaList (s :: t :: items) = s ++ (", " ++ commaList (t :: items)) := by
        simp [commaList, String.intercalate_cons_cons, String.append_assoc]
      rw [text]
      exact both

/-- An enumeration around a row of cases. -/
theorem fits_keys {name first : String} {others : List String} {ls : List Lexeme}
    {elements : List CaseElement} (mild : IsMild ls)
    (fits : FitsRow ls fun i => i.members.flatMap Member.elements = elements) :
    FitsRow (enumLexemes name first others ++ braces ls) fun i =>
      i.members.filterMap Member.outerCases? = if name = outerKeys then [elements] else [] := by
  refine (fits_nominal fits_enum fits mild).imp ?_
  rintro i ⟨header, opening, inner, closing, ⟨is, called⟩, seen, rfl⟩
  simp only [Items.members, List.filterMap_cons, List.filterMap_nil, Member.outerCases?, is,
    called, true_and, seen]
  split <;> simp_all

theorem isMild_enum {name first : String} {others : List String} {ls : List Lexeme} :
    IsMild (enumLexemes name first others ++ ls) := by
  intro l head
  obtain rfl := Option.some.inj head
  rfl

section
variable {unit : String} (spaces : ∀ c ∈ unit.toList, isSpace c = true)
include spaces

/-- A function is a member, and none that holds keys. -/
theorem declares_function {method : Method} {access : String} {body : List Statement}
    (header : IsHeader (method.header access ++ " \x7b")) (prints : ∀ s ∈ body, s.Prints) :
    Declares unit ((CodeMember.function method body).lines access) [] := by
  obtain ⟨l, ls, woven, mild, fits⟩ := header
  have inner : Body unit (body.flatMap (Statement.lines 1)) :=
    .flatMap fun s mem => s.body_lines spaces (prints s mem)
  obtain ⟨bs, inside, level, quiet⟩ := inner
  have close : Woven ((Line.text 0 "\x7d").render unit) [⟨.rightBrace, "\x7d"⟩] [] :=
    woven_text spaces (woven_of_fixed ⟨rfl, rfl⟩)
  have line : Woven ((Line.text 0 (method.header access ++ " \x7b")).render unit)
      (l :: ls ++ [⟨.leftBrace, "\x7b"⟩]) [] := woven_text spaces woven
  have all := AllWoven.cons line (inside.append (.single close))
  have leaf : Fits Leaf.tokens (l :: ls ++ braces bs) fun l => True ∧ l.IsFirm :=
    fun ts ms h => (fits bs level quiet ts ms h).imp fun _ => Exists.imp fun _ seen =>
      ⟨seen.1, seen.2.1, trivial, seen.2.2⟩
  refine ⟨l :: ls ++ braces bs, ?_, ?_, (fits_leaf leaf).imp ?_⟩
  · simpa [CodeMember.lines, braces] using all
  · intro m head
    obtain rfl := Option.some.inj head
    exact mild
  · rintro i ⟨l, -, rfl⟩
    simp [Items.members, outerCases?_leaf]

/-- The header of an enumeration. -/
theorem woven_enum {name s : String} {ls : List Lexeme} (named : IsTypeName name)
    (behind : Lead s ls) (halts : Halts s.toList) :
    Woven ((Line.text 0 ("enum " ++ name ++ s)).render unit)
      (⟨.enumKw, "enum"⟩ :: ⟨.name, name⟩ :: ls) [] := by
  have enum : Lead "enum " [⟨.enumKw, "enum"⟩] := lead_of_fixed ⟨rfl, rfl⟩
  rw [String.append_assoc]
  exact woven_text spaces (enum.append_piece (named.piece.append behind.piece halts)).woven

/-- A header with one line of cases. -/
theorem declares_cases {s name c : String} {rest : List String} (first : String)
    (others : List String)
    (woven : Woven ((Line.text 0 s).render unit)
      (enumLexemes name first others ++ [⟨.leftBrace, "\x7b"⟩]) [])
    (members : ∀ t ∈ c :: rest, IsMemberName t) :
    Declares unit [.text 0 s, .text 1 ("case " ++ commaList (c :: rest)), .text 0 "\x7d"]
      (if name = outerKeys then [(c :: rest).map plainCase] else []) := by
  have row : FitsRow (⟨.caseKw, "case"⟩ :: commaLexemes (c :: rest)) fun i =>
      i.members.flatMap Member.elements = (c :: rest).map plainCase := by
    refine (fits_leaf (fits_cases fun t mem => (members t mem).identifier)).imp ?_
    rintro i ⟨l, ⟨g, rfl, elements⟩, rfl⟩
    simpa [Items.members, Leaf.member, Member.elements] using elements
  have mild : IsMild (⟨.caseKw, "case"⟩ :: commaLexemes (c :: rest)) := by
    intro l head
    obtain rfl := Option.some.inj head
    rfl
  have word : Lead "case " [⟨.caseKw, "case"⟩] := lead_of_fixed ⟨rfl, rfl⟩
  have line : Woven ((Line.text 1 ("case " ++ commaList (c :: rest))).render unit)
      (⟨.caseKw, "case"⟩ :: commaLexemes (c :: rest)) [] :=
    woven_text spaces (word.append_piece (piece_commaList fun t mem => (members t mem).plain)).woven
  have close : Woven ((Line.text 0 "\x7d").render unit) [⟨.rightBrace, "\x7d"⟩] [] :=
    woven_text spaces (woven_of_fixed ⟨rfl, rfl⟩)
  have all := AllWoven.cons woven (.cons line (.single close))
  refine ⟨enumLexemes name first others ++ braces (⟨.caseKw, "case"⟩ :: commaLexemes (c :: rest)),
    ?_, isMild_enum, fits_keys mild row⟩
  simpa [braces] using all

/-- An enumeration of keys is a member with one case for each. -/
theorem declares_keys {name : String} {textual : Bool} {cases : List String} {access : String}
    (named : IsTypeName name) (members : ∀ s ∈ cases, IsMemberName s) :
    Declares unit ((CodeMember.keys name textual cases).lines access)
      (if name = outerKeys then [cases.map plainCase] else []) := by
  have colon : ∀ t : String, Halts (":" ++ t).toList := by
    simp [Halts, halts, isMark, Kind.ofMark?]
  cases cases with
  | nil =>
    have behind : Lead ": CodingKey \x7b\x7d" [⟨.colon, ":"⟩, ⟨.name, "CodingKey"⟩,
        ⟨.leftBrace, "\x7b"⟩, ⟨.rightBrace, "\x7d"⟩] := lead_of_fixed ⟨rfl, rfl⟩
    have woven := woven_enum spaces named behind (colon " CodingKey \x7b\x7d")
    have empty : FitsRow [] fun i => i.members.flatMap Member.elements = [] := by
      refine fits_empty.imp ?_
      rintro i rfl
      rfl
    exact ⟨enumLexemes name "CodingKey" [] ++ braces [], .single woven, isMild_enum,
      fits_keys (by simp [IsMild]) empty⟩
  | cons c rest =>
    cases textual with
    | true =>
      have behind : Lead ": String, CodingKey \x7b" [⟨.colon, ":"⟩, ⟨.name, "String"⟩,
          ⟨.comma, ","⟩, ⟨.name, "CodingKey"⟩, ⟨.leftBrace, "\x7b"⟩] :=
        lead_of_fixed ⟨rfl, rfl⟩
      have woven := woven_enum spaces named behind (colon " String, CodingKey \x7b")
      have text : "enum " ++ name ++ ": " ++ "String, " ++ "CodingKey \x7b" =
          "enum " ++ name ++ ": String, CodingKey \x7b" := by
        simp only [String.append_assoc]
        rfl
      rw [← text] at woven
      exact declares_cases spaces "String" ["CodingKey"] woven members
    | false =>
      have behind : Lead ": CodingKey \x7b" [⟨.colon, ":"⟩, ⟨.name, "CodingKey"⟩,
          ⟨.leftBrace, "\x7b"⟩] := lead_of_fixed ⟨rfl, rfl⟩
      have woven := woven_enum spaces named behind (colon " CodingKey \x7b")
      have text : "enum " ++ name ++ ": " ++ "" ++ "CodingKey \x7b" =
          "enum " ++ name ++ ": CodingKey \x7b" := by
        simp only [String.append_assoc]
        rfl
      rw [← text] at woven
      exact declares_cases spaces "CodingKey" [] woven members

/-! ## Members -/

namespace CodeMember

/-- The cases of the outer keys that a member is. -/
def outerCases : CodeMember → List (List CaseElement)
  | keys name _ cases => if name = outerKeys then [cases.map plainCase] else []
  | function .. => []

/-- What is put in for a member. -/
def Prints : CodeMember → Prop
  | keys name _ cases => IsTypeName name ∧ ∀ s ∈ cases, IsMemberName s
  | function method body => method.Prints ∧ ∀ s ∈ body, s.Prints

theorem declares_lines {m : CodeMember} (prints : m.Prints) (isPublic : Bool) :
    Declares unit (m.lines (accessWord isPublic)) m.outerCases := by
  cases m with
  | keys name textual cases => exact declares_keys spaces prints.1 prints.2
  | function method body => exact declares_function spaces (prints.1.isHeader isPublic) prints.2

end CodeMember

end

end Conformance
