import Conformance.Code.Memberwise
import Conformance.Proofs.Code.PrintedMembers
import Conformance.Proofs.Token.Squashed

/-!
# Printed blocks

A block of generated code is read as a firm row of declarations: an extension of its type, or a
memberwise initializer.  A `Sketch` is what is seen of a declaration, and a `Display` says what
row of sketches the declarations of some texts have.

The default of a parameter is a value of a source, kept verbatim.  It is the only part of
generated code that is no filler, so the values are kept track of.
-/

namespace Conformance

open Pattern Lexical Grammar

/-! ## Sketches -/

/-- What is seen of a declaration. -/
inductive Sketch where
  /-- A type with its supertypes, and the cases of each enumeration of outer keys in it. -/
  | type (kind : NominalKind) (name : String) (inherited : List String)
      (keys : List (List CaseElement))
  /-- A declaration without state: its keyword and name. -/
  | stateless (keyword : String) (name : Option String)
  /-- A line of compiler control. -/
  | directive
deriving DecidableEq, Repr

/-- The sketch of a declaration. -/
def Declaration.sketch : Declaration → Sketch
  | nominal n =>
    .type n.head.kind n.head.name n.head.inherited (n.members.filterMap Member.outerCases?)
  | stateless d => .stateless d.keyword d.name
  | directive _ => .directive

/-- Texts with the values in them are those of a firm row of declarations with some sketches. -/
def Display (texts : List String) (vs : List (List Token)) (sketches : List Sketch) : Prop :=
  ∃ ls, AllWoven texts ls vs ∧
    FitsRow ls fun i => i.declarations.map Declaration.sketch = sketches

namespace Display

variable {texts more : List String} {vs ws : List (List Token)} {sketches others : List Sketch}

theorem nil : Display [] [] [] := by
  refine ⟨[], .nil, fits_empty.imp ?_⟩
  rintro i rfl
  rfl

theorem append (first : Display texts vs sketches) (second : Display more ws others) :
    Display (texts ++ more) (vs ++ ws) (sketches ++ others) := by
  obtain ⟨ls, woven, fits⟩ := first
  obtain ⟨ms, further, fits'⟩ := second
  refine ⟨ls ++ ms, woven.append further, (fits.append fits').imp ?_⟩
  rintro k ⟨i, j, seen, seen', rfl⟩
  rw [Items.declarations_append, List.map_append, seen, seen']

/-- Texts with a blank line between each two. -/
theorem joined (h : Display texts vs sketches) : Display ["\n\n".intercalate texts] vs sketches := by
  obtain ⟨ls, woven, fits⟩ := h
  exact ⟨ls, .single (woven.intercalate Woven.append_blank), fits⟩

end Display

/-! ## Extensions -/

/-- The sketch of an extension. -/
def Extension.sketch (e : Extension) : Sketch :=
  .type .extensionKind e.type [e.conformance] (e.members.flatMap CodeMember.outerCases)

/-- What is put in for an extension. -/
structure Extension.Prints (e : Extension) : Prop where
  /-- The type is a name. -/
  type : IsTypeName e.type
  /-- So is the supertype. -/
  conformance : IsTypeName e.conformance
  /-- And what is put in for the members. -/
  members : ∀ m ∈ e.members, m.Prints

theorem squash_of_plain {s : String} (plain : IsPlainName s) : Text.squash s = s := by
  obtain ⟨c, cs, chars, start, parts⟩ := plain.exists_cons
  have ink : ∀ d ∈ s.toList, Text.isBlank d = false := by
    rw [chars]
    exact List.forall_mem_cons.mpr ⟨ink_of_isNamePart (isNamePart_of_isNameStart start),
      fun d mem => ink_of_isNamePart (parts d mem)⟩
  rw [Text.squash_eq_collapse (fun d mem => ink d (List.mem_of_head? mem))
    (fun d mem => ink d (List.mem_of_getLast? mem)), collapse_of_ink ink, String.ofList_toList]

section
variable {unit : String} (spaces : ∀ c ∈ unit.toList, isSpace c = true)
include spaces

theorem declares_nest {lines : List Line} {keys : List (List CaseElement)}
    (h : Declares unit lines keys) : Declares unit (nest lines) keys := by
  obtain ⟨ls, woven, mild, fits⟩ := h
  exact ⟨ls, allWoven_nest spaces woven, mild, fits⟩

/-- An extension is read as one of its type, with its supertype and the outer keys it declares. -/
theorem Extension.display {e : Extension} (prints : e.Prints) :
    Display [e.render unit] [] [e.sketch] := by
  obtain ⟨type, conformance, each⟩ := prints
  have members : Declares unit (nest (separated (e.members.map
      (CodeMember.lines (accessWord e.isPublic))))) (e.members.flatMap CodeMember.outerCases) :=
    declares_nest spaces (.separated fun m mem => m.declares_lines spaces (each m mem) e.isPublic)
  obtain ⟨ls, inside, mild, fits⟩ := members
  have first : Lead "extension " [⟨.extensionKw, "extension"⟩] := lead_of_fixed ⟨rfl, rfl⟩
  have colon : Lead ": " [⟨.colon, ":"⟩] := lead_of_fixed ⟨rfl, rfl⟩
  have opening : Lead " \x7b" [⟨.leftBrace, "\x7b"⟩] := lead_of_fixed ⟨rfl, rfl⟩
  have header := first.append_piece (type.piece.append (colon.append_piece
    (conformance.piece.append opening.piece (by simp [Halts, halts, isSpace])))
    (by simp [Halts, halts, isMark, Kind.ofMark?]))
  simp only [← String.append_assoc] at header
  have close : Woven ((Line.text 0 "\x7d").render unit) [⟨.rightBrace, "\x7d"⟩] [] :=
    woven_text spaces (woven_of_fixed ⟨rfl, rfl⟩)
  have line : Woven ((Line.text 0 ("extension " ++ e.type ++ ": " ++ e.conformance ++
      " \x7b")).render unit) (extensionLexemes e.type e.conformance ++ [⟨.leftBrace, "\x7b"⟩]) [] :=
    woven_text spaces header.woven
  have all := AllWoven.cons line (inside.append (.single close))
  have whole : Woven (e.render unit) (extensionLexemes e.type e.conformance ++ braces ls) [] := by
    have text := all.intercalate Woven.append_line
    simpa [render, lines, Line.renderAll, extensionLexemes, braces] using text
  refine ⟨_, .single whole, (fits_nominal fits_extension fits mild).imp ?_⟩
  rintro i ⟨header, opening, inner, closing, ⟨is, called, inherits⟩, seen, rfl⟩
  simp [Items.declarations, Declaration.sketch, sketch, is, called, inherits, seen,
    squash_of_plain conformance.plain]

/-- Extensions as one block. -/
theorem display_block {es : List Extension} (each : ∀ e ∈ es, e.Prints) :
    Display [renderBlock unit es] [] (es.map Extension.sketch) := by
  have parts : Display (es.map (Extension.render unit)) [] (es.map Extension.sketch) := by
    induction es with
    | nil => exact .nil
    | cons e es ih =>
      obtain ⟨here, later⟩ := List.forall_mem_cons.mp each
      exact (Extension.display spaces here).append (ih later)
  exact parts.joined

end

/-! ## Initializers -/

/-- What is put in for a field. -/
structure Field.Prints (f : Field) : Prop where
  /-- The name can be written as it is. -/
  name : IsMemberName f.name
  /-- The type is lexed by itself. -/
  type : IsFiller f.type

/-- The default of a field, if there is one, is a value with level tokens. -/
def Field.Carries (f : Field) (vs : List (List Token)) : Prop :=
  f.default.toList = vs.map Token.stretch ∧ ∀ v ∈ vs, IsLevel (v.map Token.kind)

/-- A line break behind the comment in front of an initializer. -/
theorem lead_comment : Lead (MemberwiseInit.comment ++ "\n") [] where
  lexes w := by
    have found : front? (MemberwiseInit.comment.toList ++ '\n' :: w) =
        some (.comment, MemberwiseInit.comment.toList.length) := by
      have chars : MemberwiseInit.comment.toList ++ '\n' :: w =
          '/' :: '/' :: ("/ Memberwise initializer.".toList ++ '\n' :: w) := rfl
      have inner : run inLine ("/ Memberwise initializer.".toList ++ '\n' :: w) =
          "/ Memberwise initializer.".toList.length := rfl
      rw [chars, front?_slash, Pattern.comment, inner]
      rfl
    have line : Lexes (MemberwiseInit.comment.toList ++ ['\n']) ([] ++ []) w :=
      .turn (.comment found) (.blank (by decide))
    simpa [String.toList_append] using line
  quiet := .of_chars (by decide) (by decide)
  last c is := by
    have feed : (MemberwiseInit.comment ++ "\n").toList.getLast? = some '\n' := rfl
    rw [feed] at is
    cases is
    decide

theorem level_lexemes {v : List Token} (level : IsLevel (v.map Token.kind)) :
    IsLevel ((v.map Token.lexeme).map Lexeme.kind) := by
  have kinds : (v.map Token.lexeme).map Lexeme.kind = (v.map Token.kind).map Kind.unmarked := by
    rw [List.map_map, List.map_map]
    rfl
  rw [IsLevel, kinds, nesting_unmarked]
  exact level

/-- A parameter is woven around its default. -/
theorem Field.Prints.woven_parameter {f : Field} (prints : f.Prints) {vs : List (List Token)}
    (carries : f.Carries vs) :
    ∃ ls, Woven f.parameter.text ls vs ∧ IsLevel (ls.map Lexeme.kind) := by
  obtain ⟨name, ts, type, level⟩ := prints
  have colon : Lead ": " [⟨.colon, ":"⟩] := lead_of_fixed ⟨rfl, rfl⟩
  have equal : Lead " = " [⟨.equal, "="⟩] := lead_of_fixed ⟨rfl, rfl⟩
  have front := name.plain.piece.append (colon.append_piece type)
    (by simp [Halts, halts, isMark, Kind.ofMark?])
  have bracket : IsLevel ((wordLexeme f.name :: ⟨.colon, ":"⟩ :: ts).map Lexeme.kind) :=
    .cons (Kind.isBracket_ofWord f.name) (.cons rfl level)
  cases value : f.default with
  | none =>
    have none : vs = [] := by simpa [Field.Carries, value, eq_comm] using carries.1
    have text : f.parameter.text = f.name ++ (": " ++ f.type) := by
      simp [Parameter.text, parameter, value, String.append_assoc]
    rw [text, none]
    exact ⟨wordLexeme f.name :: ⟨.colon, ":"⟩ :: ts, front.woven, bracket⟩
  | some d =>
    obtain ⟨is, levels⟩ := carries
    rw [value, Option.toList_some, eq_comm, List.map_eq_singleton_iff] at is
    obtain ⟨v, rfl, rfl⟩ := is
    have text : f.parameter.text = f.name ++ (": " ++ f.type) ++ " = " ++ Token.stretch v := by
      simp [Parameter.text, parameter, value, String.append_assoc]
    have lead := front.append_lead equal (by simp [Halts, halts, isSpace]) (by decide)
    rw [text]
    refine ⟨(wordLexeme f.name :: ⟨.colon, ":"⟩ :: ts) ++ [⟨.equal, "="⟩] ++ v.map Token.lexeme,
      lead.append_woven (.value v), ?_⟩
    rw [List.map_append, List.map_append]
    exact (bracket.append (.cons rfl .nil)).append (level_lexemes (levels v List.mem_cons_self))

/-- A comment in front of what is lexed as an initializer. -/
theorem display_initializer {s : String} (inside body : List Lexeme) {vs : List (List Token)}
    {isPublic : Bool} (level : IsLevel (inside.map Lexeme.kind))
    (level' : IsLevel (body.map Lexeme.kind)) (mild : IsMild body)
    (woven : Woven s (accessLexemes isPublic ++ ⟨.initKw, "init"⟩ ::
      (parameters inside [] ++ braces body)) vs) :
    Display [MemberwiseInit.comment ++ "\n" ++ s] vs [.stateless "init" none] := by
  have fits := fits_constructor "init" (isModifier_access isPublic)
    (isSignature_parameters level (List.forall_mem_nil _)) level' mild
  refine ⟨_, .single (lead_comment.append_woven woven), (fits_leaf fits).imp ?_⟩
  rintro i ⟨l, ⟨d, is, keyword, name⟩, rfl⟩
  simp [Items.declarations, is, Declaration.sketch, keyword, name]

section
variable {unit : String} (spaces : ∀ c ∈ unit.toList, isSpace c = true)
include spaces

/-- Parameters on lines of their own. -/
theorem code_parameters {ps : List (Field × List (List Token))} (depth : Nat)
    (each : ∀ p ∈ ps, p.1.Prints ∧ p.1.Carries p.2) (opened : List Bracket) :
    Code unit ((withCommas (ps.map fun p => p.1.parameter.text)).map (Line.text depth))
      (ps.flatMap Prod.snd) opened opened := by
  induction ps with
  | nil => exact .nil
  | cons p ps ih =>
    obtain ⟨⟨prints, carries⟩, others⟩ := List.forall_mem_cons.mp each
    obtain ⟨ls, woven, level⟩ := prints.woven_parameter carries
    cases ps with
    | nil =>
      have line : Code unit [.text depth p.1.parameter.text] p.2 opened opened :=
        ⟨ls, .single (woven_text spaces woven), level.nesting_eq opened⟩
      simpa [withCommas] using line
    | cons q ps =>
      have comma : IsLevel ((ls ++ [(⟨.comma, ","⟩ : Lexeme)]).map Lexeme.kind) := by
        rw [List.map_append]
        exact level.append (.cons rfl .nil)
      have line : Code unit [.text depth (p.1.parameter.text ++ ",")] p.2 opened opened :=
        ⟨_, .single (woven_text spaces woven.comma), comma.nesting_eq opened⟩
      exact line.append (ih others)

/-- An initializer is read as one. -/
theorem MemberwiseInit.display {ps : List (Field × List (List Token))}
    (each : ∀ p ∈ ps, p.1.Prints ∧ p.1.Carries p.2) (isPublic : Bool) :
    Display [(MemberwiseInit.mk (ps.map Prod.fst) isPublic).render unit] (ps.flatMap Prod.snd)
      [.stateless "init" none] := by
  have access := lead_access isPublic
  cases ps with
  | nil =>
    have rest : Lead "init() \x7b\x7d" [⟨.initKw, "init"⟩, ⟨.leftParen, "("⟩, ⟨.rightParen, ")"⟩,
        ⟨.leftBrace, "\x7b"⟩, ⟨.rightBrace, "\x7d"⟩] := lead_of_fixed ⟨rfl, rfl⟩
    have woven := (access.append rest).piece.woven
    have text : (MemberwiseInit.mk [] isPublic).render unit =
        comment ++ "\n" ++ (accessWord isPublic ++ "init() \x7b\x7d") := by
      have last : "init() \x7b\x7d" = "init(" ++ ") \x7b\x7d" := rfl
      simp [render, Line.renderAll, lines, Line.render, String.intercalate_cons_cons, last,
        String.append_assoc]
    rw [List.map_nil, text]
    exact display_initializer [] [] IsLevel.nil IsLevel.nil (by simp [IsMild]) woven
  | cons p ps =>
    have opening : Lead "init(" [⟨.initKw, "init"⟩, ⟨.leftParen, "("⟩] :=
      lead_of_fixed ⟨rfl, rfl⟩
    have first : Woven ((Line.text 0 (accessWord isPublic ++ "init(")).render unit)
        (accessLexemes isPublic ++ [⟨.initKw, "init"⟩, ⟨.leftParen, "("⟩]) [] :=
      woven_text spaces (access.append opening).piece.woven
    obtain ⟨ls, parameters, level⟩ := code_parameters spaces 1 each []
    have middle : Woven ((Line.text 0 ") \x7b").render unit)
        [⟨.rightParen, ")"⟩, ⟨.leftBrace, "\x7b"⟩] [] :=
      woven_text spaces (lead_of_fixed ⟨rfl, rfl⟩).piece.woven
    have body : Body unit ((p :: ps).map fun p => .text 1 p.1.assignment.text) := by
      rw [List.map_eq_flatMap]
      refine .flatMap fun q mem => ?_
      have filler := (each q mem).1.name.plain.isFiller
      exact body_line spaces "self." [q.1.name, q.1.name] [" = ", ""]
        (by simp [Assignment.text, Field.assignment, fill, String.append_assoc])
        rfl rfl (by simp [filler])
    obtain ⟨bs, inside, level', mild⟩ := body
    have close : Woven ((Line.text 0 "\x7d").render unit) [⟨.rightBrace, "\x7d"⟩] [] :=
      woven_text spaces (woven_of_fixed ⟨rfl, rfl⟩)
    have all := (AllWoven.single first).append (parameters.append
      (.cons middle (inside.append (.single close))))
    have whole := display_initializer _ _ level level' mild
      (by simpa [Conformance.parameters, braces] using all.intercalate Woven.append_line)
    have first : (Line.text 0 comment).render unit = comment := by simp [Line.render]
    simpa [render, Line.renderAll, lines, first, MemberwiseInit.parameters, assignments,
      Function.comp_def, String.append_assoc] using whole

end

end Conformance
