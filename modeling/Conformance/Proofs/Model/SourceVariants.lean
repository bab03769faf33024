import Conformance.Proofs.Model.SourceFields
import Conformance.Proofs.Model.Variants

/-!
# From a source to variants

The counterpart of the fields of a structure.  If the members of an enumeration are
members by themselves and end in no dot, then the source is read with just these members,
and the variants are those of the cases among them, in order
(`SourceFile.read_variants`).

A type among the members has to be settled here as well: `read_unsettledCase` shows an
enumeration with a case that is never read for it.
-/

namespace Conformance

open Grammar

/-- An enumeration is read from its source, and its variants are those of its members: for each
case one, with a slot for each type in its parentheses, as they are written in the source. -/
theorem SourceFile.read_variants {d : TypeInSource} (row : d.IsRow)
    (enumeration : d.header.keyword.kind = .enumKw)
    (nested : ∀ m ∈ d.members, m.declaresType = true → m.Settled [])
    {text : String} (clean : (lex text.toList).stray? = none)
    (tokens : (lex text.toList).delivered = d.tokens) (filename : Option String) :
    ∃ front n back, read text filename = .ok ⟨front ++ .nominal n :: back, filename⟩ ∧
      front.map Declaration.outline = d.before.declared ∧
      back.map Declaration.outline = d.after.declared ∧
      n.head = d.header.nominalHead ∧ n.head.kind.shape = .sum ∧
      n.variants = d.members.flatMap (Forest.variants text.toList) := by
  obtain ⟨r⟩ := row.exists_rows
  have read := row.read nested clean tokens filename r
  have shape : r.nominal.head.kind.shape = .sum := by
    simp only [TypeInSource.Rows.nominal, Header.nominalHead, enumeration]
    rfl
  have variants : r.nominal.variants = d.members.flatMap (Forest.variants text.toList) := by
    obtain ⟨⟨q, tiles⟩, -⟩ := r.inner_tokens tokens
    have members := Items.variants_members tiles
    rwa [← r.forest_inner, Forest.variants_concat] at members
  exact ⟨r.before.declarations, r.nominal, r.after.declarations, read, r.outlines_before,
    r.outlines_after, rfl, shape, variants⟩

/-! ## Two sources -/

/-- The text of an enumeration with cases of every form, and a type between them. -/
def fourCasesText : String :=
  "enum E \x7b case a, c(), open(x: Int, _: T, U = 1) case b = 2 struct N \x7b \x7d \x7d"

/-- The type of a single name. -/
def namedType (name : Tok .name) : TypeSyntax :=
  .composed (.marked (.named (.plain name) .pathEnd) []) .noConjunct

/-- The members of that enumeration. -/
def fourCases : TypeInSource where
  before := .nil
  header := .structured ⟨[], []⟩ ⟨tokenAt .enumKw "" "enum" 0, rfl⟩
    (tokAt .name " " "E" 5) none none none
  opening := tokAt .leftBrace " " "\x7b" 7
  members := [
    .under .item (.under .decl (.under .caseDecl (CaseGroup.forest {
      head := ⟨[], []⟩
      keyword := tokAt .caseKw " " "case" 9
      cases := ⟨⟨⟨tokenAt .name " " "a" 14, rfl⟩, none, none⟩, [
        (tokAt .comma "" "," 15, ⟨⟨tokenAt .name " " "c" 17, rfl⟩,
          some ⟨tokAt .leftParen "" "(" 18, none, tokAt .rightParen "" ")" 19⟩, none⟩),
        (tokAt .comma "" "," 20, ⟨⟨tokenAt .openKw " " "open" 22, rfl⟩,
          some ⟨tokAt .leftParen "" "(" 26, some ⟨
            .labelled ⟨tokenAt .name "" "x" 27, rfl⟩ (tokAt .colon "" ":" 28)
              (namedType (tokAt .name " " "Int" 30)) none, [
            (tokAt .comma "" "," 33, .labelled ⟨tokenAt .name " " "_" 35, rfl⟩
              (tokAt .colon "" ":" 36) (namedType (tokAt .name " " "T" 38)) none),
            (tokAt .comma "" "," 39, .positional (namedType (tokAt .name " " "U" 41))
              (some ⟨tokAt .equal " " "=" 43,
                .plain (.word ⟨tokenAt .number " " "1" 45, rfl⟩), []⟩))]⟩,
            tokAt .rightParen "" ")" 46⟩, none⟩)]⟩ }))),
    .under .item (.under .decl (.under .caseDecl (CaseGroup.forest {
      head := ⟨[], []⟩
      keyword := tokAt .caseKw " " "case" 48
      cases := ⟨⟨⟨tokenAt .name " " "b" 53, rfl⟩, none,
        some ⟨tokAt .equal " " "=" 55,
          .plain (.word ⟨tokenAt .number " " "2" 57, rfl⟩), []⟩⟩, []⟩ }))),
    typeTree (.structured ⟨[], []⟩ ⟨tokenAt .structKw " " "struct" 59, rfl⟩
      (tokAt .name " " "N" 66) none none none) (tokAt .leftBrace " " "\x7b" 68) .nil
      (tokAt .rightBrace " " "\x7d" 70)]
  closing := tokAt .rightBrace " " "\x7d" 72
  after := .nil

theorem fourCases_tokens : (lex fourCasesText.toList).stray? = none ∧
    (lex fourCasesText.toList).delivered = fourCases.tokens := by
  decide +kernel

theorem isRow_fourCases : fourCases.IsRow where
  before := .none
  settledBefore := trivial
  after := .none
  settledAfter := trivial
  members := by
    intro m mem
    simp only [fourCases, List.mem_cons, List.not_mem_nil, or_false] at mem
    obtain rfl | rfl | rfl := mem
    · exact ⟨.part (.left (Leaf.cases _).derives), by rintro t ⟨⟩; decide⟩
    · exact ⟨.part (.left (Leaf.cases _).derives), by rintro t ⟨⟩; decide⟩
    · exact ⟨derives_typeTree .none, by rintro t ⟨⟩; decide⟩

theorem SourceFile.read_fourCases :
    ∃ front n back, read fourCasesText none = .ok ⟨front ++ .nominal n :: back, none⟩ ∧
      n.variants = [⟨"a", none⟩, ⟨"c", some []⟩,
        ⟨"open", some [⟨"x", "Int", true⟩, ⟨"v1", "T", false⟩, ⟨"v2", "U", false⟩]⟩,
        ⟨"b", none⟩] := by
  have nested : ∀ m ∈ fourCases.members, m.declaresType = true → m.Settled [] := by
    intro m mem isType
    simp only [fourCases, List.mem_cons, List.not_mem_nil, or_false] at mem
    obtain rfl | rfl | rfl := mem
    · cases isType
    · cases isType
    · exact typeTree_settled fun _ => trivial
  obtain ⟨front, n, back, read, -, -, -, -, variants⟩ := SourceFile.read_variants
    isRow_fourCases rfl nested fourCases_tokens.1 fourCases_tokens.2 none
  refine ⟨front, n, back, read, variants.trans ?_⟩
  decide +kernel

/-- The text of an enumeration with a type in front of its case, where a property ends in a
dot. -/
def unsettledCaseText : String :=
  "enum All \x7b struct N \x7b let a = . init throws \x7b \x7d \x7d case b \x7d"

/-- The enumeration with that type and that case as its members. -/
def unsettledCase : TypeInSource where
  before := .nil
  header := .structured ⟨[], []⟩ ⟨tokenAt .enumKw "" "enum" 0, rfl⟩
    (tokAt .name " " "All" 5) none none none
  opening := tokAt .leftBrace " " "\x7b" 9
  members := [
    typeTree (.structured ⟨[], []⟩ innerWord
      (tokAt .name " " "N" 18) none none none) (tokAt .leftBrace " " "\x7b" 20)
      unsettledRow.forest (tokAt .rightBrace " " "\x7d" 48),
    .under .item (.under .decl (.under .caseDecl (CaseGroup.forest {
      head := ⟨[], []⟩
      keyword := tokAt .caseKw " " "case" 50
      cases := ⟨⟨⟨tokenAt .name " " "b" 55, rfl⟩, none, none⟩, []⟩ })))]
  closing := tokAt .rightBrace " " "\x7d" 57
  after := .nil

/-- Derivable members without dots at their ends do not make an enumeration readable. -/
theorem read_unsettledCase : unsettledCase.IsRow ∧
    unsettledCase.header.keyword.kind = .enumKw ∧
    (lex unsettledCaseText.toList).stray? = none ∧
    (lex unsettledCaseText.toList).delivered = unsettledCase.tokens ∧
    ∀ s, SourceFile.read unsettledCaseText none ≠ .ok s := by
  have lexed : (lex unsettledCaseText.toList).stray? = none ∧
      (lex unsettledCaseText.toList).delivered = unsettledCase.tokens := by
    decide +kernel
  have fails : (SourceFile.read unsettledCaseText none).isOk = false := by
    decide +kernel
  refine ⟨⟨?_, .none, trivial, .none, trivial⟩, rfl, lexed.1, lexed.2, ?_⟩
  · intro m mem
    simp only [unsettledCase, List.mem_cons, List.not_mem_nil, or_false] at mem
    obtain rfl | rfl := mem
    · exact ⟨derives_typeTree unsettledRow.derives, by rintro t ⟨⟩; decide⟩
    · exact ⟨.part (.left (Leaf.cases _).derives), by rintro t ⟨⟩; decide⟩
  · intro s read
    rw [read] at fails
    cases fails

end Conformance
