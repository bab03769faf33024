import Conformance.Proofs.Grammar.Exactness
import Conformance.Proofs.Grammar.Fits

/-!
# Rows from lexemes

Rows of declarations whose lexemes settle them wherever they stand: leaves, enumerations of keys
and extensions, one behind the other.

A row of generated code is *firm*: no part of it could take along what stands behind the row.
So the rows can be put behind each other and between braces without another look at them.
-/

namespace Conformance.Grammar

namespace Items

/-- A row that is settled wherever it stands. -/
def IsFirm (i : Items) : Prop := ∀ behind, i.forest.Settled behind

theorem tokens_append (i j : Items) : (i ++ j).tokens = i.tokens ++ j.tokens := by
  rw [← tokens_forest, forest_append, Forest.tokens_append, tokens_forest, tokens_forest]

theorem members_append (i j : Items) : (i ++ j).members = i.members ++ j.members := by
  induction i with
  | nil => rfl
  | semicolon mark rest ih => exact ih
  | leaf l rest ih => exact congrArg (l.member :: ·) ih
  | nominal header opening inner closing rest _ ih =>
    exact congrArg (.nominal header.nominalHead inner.members :: ·) ih

theorem IsFirm.append {i j : Items} (first : i.IsFirm) (second : j.IsFirm) : (i ++ j).IsFirm := by
  intro behind
  rw [forest_append, Forest.settled_append]
  exact ⟨first _, second behind⟩

end Items

/-- Some lexemes are those of a firm row of which something holds. -/
def FitsRow (ls : List Lexeme) (sees : Items → Prop) : Prop :=
  Fits Items.tokens ls fun i => sees i ∧ i.IsFirm

section
variable {ls ms hs : List Lexeme} {first second : Items → Prop}

theorem FitsRow.imp {sees : Items → Prop} (h : FitsRow ls first) (imp : ∀ i, first i → sees i) :
    FitsRow ls sees := by
  intro ts ms face
  obtain ⟨i, us, whole, face, seen, firm⟩ := h ts ms face
  exact ⟨i, us, whole, face, imp i seen, firm⟩

theorem fits_empty : FitsRow [] (· = .nil) :=
  fun ts _ h => ⟨.nil, ts, rfl, h, rfl, fun _ => trivial⟩

theorem fits_leaf {sees : Leaf → Prop} (h : Fits Leaf.tokens ls fun l => sees l ∧ l.IsFirm) :
    FitsRow ls fun i => ∃ l, sees l ∧ i = .leaf l .nil := by
  intro ts ms face
  obtain ⟨l, us, rfl, face, seen, firm⟩ := h ts ms face
  refine ⟨.leaf l .nil, us, by simp [Items.tokens], face, ⟨l, seen, rfl⟩, fun behind => ?_⟩
  exact Items.settled_leaf_iff.mpr ⟨firm _, trivial⟩

/-- Rows one behind the other. -/
theorem FitsRow.append (h : FitsRow ls first) (h' : FitsRow ms second) :
    FitsRow (ls ++ ms) fun k => ∃ i j, first i ∧ second j ∧ k = i ++ j := by
  intro ts ns face
  rw [List.append_assoc] at face
  obtain ⟨i, us, rfl, face, seen, firm⟩ := h ts _ face
  obtain ⟨j, us, rfl, face, seen', firm'⟩ := h' us ns face
  exact ⟨i ++ j, us, by simp [Items.tokens_append], face, ⟨i, j, seen, seen', rfl⟩,
    firm.append firm'⟩

/-- A type around a row. -/
theorem fits_nominal {heads : Header → Prop} (h : Fits Header.tokens hs heads)
    (members : FitsRow ls first) (mild : IsMild ls) :
    FitsRow (hs ++ braces ls) fun k => ∃ header opening i closing, heads header ∧ first i ∧
      k = .nominal header opening i closing .nil := by
  intro ts ms face
  simp only [braces, List.append_assoc, List.cons_append, List.nil_append] at face
  obtain ⟨header, us, rfl, face, is⟩ := h ts _ face
  have quiet : IsMild (ls ++ ⟨.rightBrace, "\x7d"⟩ :: ms) := by
    intro l head
    cases ls with
    | nil =>
      cases head
      rfl
    | cons m ls => exact mild l head
  obtain ⟨t, us, rfl, kind, -, face⟩ := face.exists_cons fun _ => quiet
  obtain ⟨i, us, rfl, face, seen, firm⟩ := members us _ face
  obtain ⟨closing, us, rfl, face, -⟩ := fits_tok (by decide) us ms face
  let opening : Tok .leftBrace := ⟨t, beq_iff_eq.mpr kind⟩
  refine ⟨.nominal header opening i closing .nil, us, by simp [Items.tokens, opening], face,
    ⟨header, opening, i, closing, is, seen, rfl⟩, fun behind => ?_⟩
  exact Items.settled_nominal_iff.mpr ⟨firm _, trivial⟩

end

/-! ## Headers -/

/-- The lexemes of the header of an extension with a supertype. -/
def extensionLexemes (type conformance : String) : List Lexeme :=
  [⟨.extensionKw, "extension"⟩, ⟨.name, type⟩, ⟨.colon, ":"⟩, ⟨.name, conformance⟩]

theorem fits_extension {type conformance : String} :
    Fits Header.tokens (extensionLexemes type conformance) fun h =>
      h.nominalHead.kind = .extensionKind ∧ h.nominalHead.name = type ∧
        h.nominalHead.inherited = [Text.squash conformance] := by
  intro ts ms h
  have loose : Kind.extensionKw.isLooseNominal = true := rfl
  have colonWord : Kind.colon.isHeaderWord = true := rfl
  have nameWord : Kind.name.isHeaderWord = true := rfl
  obtain ⟨keyword, us, rfl, h, kind, -⟩ :=
    fits_word (l := ⟨.extensionKw, "extension"⟩) loose rfl ts _ h
  obtain ⟨name, us, rfl, h, named⟩ := fits_tok (by decide) us _ h
  obtain ⟨colon, us, rfl, h, mark, -⟩ := fits_word (l := ⟨.colon, ":"⟩) colonWord rfl us _ h
  obtain ⟨super, us, rfl, h, word, text⟩ :=
    fits_word (l := ⟨.name, conformance⟩) nameWord rfl us ms h
  have parts : Header.nameParts [.word colon, .word super] = ([], [.word colon, .word super]) := by
    simp [Header.nameParts, mark]
  have stretch : Token.stretch [super.val] = conformance := by
    rw [Token.stretch_singleton]
    exact text
  refine ⟨.loose ⟨[], []⟩ keyword name [.word colon, .word super], us, ?_, h, ?_, ?_, ?_⟩
  · simp [Header.tokens, Head.tokens, Atom.tokens]
  · simp [Header.nominalHead, Header.keyword, kind, Header.kindOf]
  · simp [Header.nominalHead, Header.fullName, kind, parts, named]
  · simp [Header.nominalHead, Header.supertypes, kind, parts, Header.looseSupertypes,
      Header.atomKind?, Atom.word?, mark, Header.cutAtCommas, word, Header.atomsText, Atom.tokens,
      stretch]

/-- The lexemes of the header of an enumeration with supertypes. -/
def enumLexemes (name first : String) (others : List String) : List Lexeme :=
  ⟨.enumKw, "enum"⟩ :: ⟨.name, name⟩ :: ⟨.colon, ":"⟩ :: ⟨.name, first⟩ ::
    others.flatMap fun s => [⟨.comma, ","⟩, ⟨.name, s⟩]

theorem fits_enum {name first : String} {others : List String} :
    Fits Header.tokens (enumLexemes name first others) fun h =>
      h.nominalHead.kind = .enumKind ∧ h.nominalHead.name = name := by
  intro ts ms h
  have structured : Kind.enumKw.isStructuredNominal = true := rfl
  obtain ⟨keyword, us, rfl, h, kind, -⟩ :=
    fits_word (l := ⟨.enumKw, "enum"⟩) structured rfl ts _ h
  obtain ⟨name, us, rfl, h, named⟩ := fits_tok (by decide) us _ h
  obtain ⟨colon, us, rfl, h, -⟩ := fits_tok (by decide) us _ h
  have each : ∀ s ∈ first :: others, Fits TypeTree.tokens [⟨.name, s⟩] fun t : TypeSyntax =>
      ∃ w : Tok .name, t = simpleType w ∧ w.text = s := fun s _ => fits_simpleType
  obtain ⟨types, us, rfl, h, -⟩ := fits_listed each us ms h
  refine ⟨.structured ⟨[], []⟩ keyword name none (some ⟨colon, types⟩) none, us, ?_, h, ?_, ?_⟩
  · simp [Header.tokens, Head.tokens, optionTokens, Inheritance.tokens]
  · simp [Header.nominalHead, Header.keyword, kind, Header.kindOf]
  · simp [Header.nominalHead, Header.fullName, named]

end Conformance.Grammar
