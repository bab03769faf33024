import Conformance.Proofs.Grammar.ItemCompleteness
import Conformance.Proofs.Grammar.ItemSoundness
import Conformance.Proofs.Grammar.Outline
import Conformance.Proofs.Grammar.Phrase
import Conformance.Source

/-!
# The parser and the grammar agree

A list of tokens is accepted if and only if it has a settled derivation.  There is
at most one, and the source that is built has the declarations of that derivation,
with all their parts and in order.
-/

namespace Conformance.Grammar

/-- A row declares what its parts declare. -/
theorem Items.declarations_append (i j : Items) :
    (i ++ j).declarations = i.declarations ++ j.declarations := by
  induction i with
  | nil => rfl
  | semicolon mark rest ih => exact ih
  | leaf l rest ih => exact congrArg (l.declaration :: ·) ih
  | nominal header opening inner closing rest _ ih =>
    exact congrArg (.nominal ⟨header.nominalHead, inner.members⟩ :: ·) ih

/-- A settled row is read from its tokens. -/
theorem Items.parse_tokens {i : Items} (settled : i.forest.Settled []) :
    Grammar.parse i.tokens = .done i [] := by
  have read : Reads (Items.parse (enough i.tokens.length)) Items.tokens i [] :=
    i.reads (by simp only [enough]; omega) settled (by simp)
  rw [Reads, List.append_nil] at read
  rw [Grammar.parse, read]

/-- Nothing is left behind a row that is accepted. -/
theorem parse_leaves_nothing {ts rest : List Token} {i : Items} (h : parse ts = .done i rest) :
    rest = [] := by
  unfold parse at h
  split at h
  · cases h
    rfl
  · cases h
  · cases h

/-- What is accepted are the tokens of a settled row. -/
theorem tokens_of_parse {ts : List Token} {i : Items} (h : parse ts = .done i []) :
    i.tokens = ts ∧ i.forest.Settled [] := by
  have derivation := isDerivation_of_parse h
  exact ⟨by simpa [Items.derivation] using derivation.tokens,
    (Forest.settled_under (by decide) ..).mp derivation.settled⟩

/-- The row of a settled derivation is read from its tokens. -/
theorem parse_of_isDerivation {f : Forest} {ts : List Token} (h : IsDerivation f ts) :
    ∃ i : Items, f = i.derivation ∧ parse ts = .done i [] := by
  obtain ⟨i, rfl⟩ := exists_items h.derives
  have tokens : i.tokens = ts := by simpa [Items.derivation] using h.tokens
  have settled : i.forest.Settled [] := (Forest.settled_under (by decide) ..).mp h.settled
  exact ⟨i, rfl, tokens ▸ Items.parse_tokens settled⟩

/-- The declarations of a derivation. -/
def Forest.declared (f : Forest) : List Outline := f.outlines.map Outline.outside

/-- The parser accepts exactly what has a settled derivation.  The derivation is unique, and the
source that is built has the declarations of the derivation. -/
theorem parse_accepts_iff (ts : List Token) (filename : Option String) :
    ((∃ i, parse ts = .done i []) ↔ ∃ f, IsDerivation f ts) ∧
      (∀ f g, IsDerivation f ts → IsDerivation g ts → f = g) ∧
      ∀ f i, IsDerivation f ts → parse ts = .done i [] →
        SourceFile.outline ⟨i.declarations, filename⟩ = f.declared := by
  refine ⟨⟨?_, ?_⟩, ?_, ?_⟩
  · rintro ⟨i, read⟩
    exact ⟨i.derivation, isDerivation_of_parse read⟩
  · rintro ⟨f, derivation⟩
    obtain ⟨i, -, read⟩ := parse_of_isDerivation derivation
    exact ⟨i, read⟩
  · intro f g first second
    obtain ⟨i, rfl, read⟩ := parse_of_isDerivation first
    obtain ⟨j, rfl, again⟩ := parse_of_isDerivation second
    rw [read] at again
    cases again
    rfl
  · intro f i derivation read
    obtain ⟨j, rfl, again⟩ := parse_of_isDerivation derivation
    rw [read] at again
    cases again
    have outlines : i.derivation.outlines = i.forest.outlines := List.append_nil _
    rw [Forest.declared, outlines, i.outlines_declarations]
    rfl

/-- The tokens of `struct S { var a = .public var b }`, where the word behind the dot could also
modify the second property. -/
def memberBehindDot : List Token := [
  ⟨.structKw, "", "struct", .origin, .origin⟩, ⟨.name, " ", "S", .origin, .origin⟩,
  ⟨.leftBrace, " ", "\x7b", .origin, .origin⟩, ⟨.varKw, " ", "var", .origin, .origin⟩,
  ⟨.name, " ", "a", .origin, .origin⟩, ⟨.equal, " ", "=", .origin, .origin⟩,
  ⟨.dot, " ", ".", .origin, .origin⟩, ⟨.publicKw, "", "public", .origin, .origin⟩,
  ⟨.varKw, " ", "var", .origin, .origin⟩, ⟨.name, " ", "b", .origin, .origin⟩,
  ⟨.rightBrace, " ", "\x7d", .origin, .origin⟩]

theorem parse_accepts_memberBehindDot :
    ∃ f, IsDerivation f memberBehindDot ∧ (∀ g, IsDerivation g memberBehindDot → g = f) ∧
      f.declared = [.nominal .structKind "S" [
        .property "var" [⟨some "a", none, some ".public"⟩],
        .property "var" [⟨some "b", none, none⟩]]] := by
  obtain ⟨accepts, unique, declared⟩ := parse_accepts_iff memberBehindDot none
  obtain ⟨f, derivation⟩ := accepts.mp ⟨_, rfl⟩
  exact ⟨f, derivation, fun g other => unique g f other derivation,
    (declared f _ derivation rfl).symm.trans rfl⟩

end Conformance.Grammar

namespace Conformance

open Grammar

/-! ## Sources -/

/-- The syntax of a text is the row of its tokens, if nothing in it is stray. -/
theorem readSyntax_eq_ok {cs : List Char} {i : Items} : readSyntax cs = .ok i ↔
    (lex cs).stray? = none ∧ parse (lex cs).delivered = .done i [] := by
  constructor
  · intro accepted
    unfold readSyntax at accepted
    dsimp only at accepted
    split at accepted
    · cases accepted
    · cases accepted
    · cases accepted
    next j rest read clean =>
      cases accepted
      obtain rfl := parse_leaves_nothing read
      exact ⟨clean, read⟩
  · rintro ⟨clean, parsed⟩
    simp only [readSyntax, parsed, clean]

/-- A source is read if the row of its tokens is and nothing in it is stray. -/
theorem SourceFile.read_eq_ok {text : String} {filename : Option String} {f : SourceFile} :
    read text filename = .ok f ↔ ∃ i, (lex text.toList).stray? = none ∧
      parse (lex text.toList).delivered = .done i [] ∧ f = ⟨i.declarations, filename⟩ := by
  constructor
  · intro accepted
    unfold read at accepted
    dsimp only at accepted
    split at accepted
    next i items =>
      cases accepted
      obtain ⟨clean, parsed⟩ := readSyntax_eq_ok.mp items
      exact ⟨i, clean, parsed, rfl⟩
    next => cases accepted
  · rintro ⟨i, clean, parsed, rfl⟩
    rw [read, readSyntax_eq_ok.mpr ⟨clean, parsed⟩]

end Conformance
