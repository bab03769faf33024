import Conformance.Proofs.Grammar.Derivation
import Conformance.Proofs.Token.Reading

/-!
# Reserved words are spelled as they are

A token of a reserved kind has the text of its word.  Lexing takes the kind from the
text, and what happens to the stream behind it makes no reserved words.
-/

namespace Conformance

/-- Whether a kind is that of a reserved word. -/
def Kind.isReserved (k : Kind) : Bool := Kind.reserved.any (·.2 == k)

namespace Token

/-- If a token is a reserved word, its text is that word. -/
def Spelled (t : Token) : Prop := t.kind.isReserved = true → (t.text, t.kind) ∈ Kind.reserved

theorem Spelled.of_not_reserved {t : Token} (no : t.kind.isReserved = false) : t.Spelled := by
  intro yes
  rw [no] at yes
  cases yes

/-- Of all modifiers only `static` has that text. -/
theorem Spelled.text_static {t : Token} (spelled : t.Spelled) (yes : t.kind.isModifier = true) :
    t.text = "static" ↔ t.kind = .staticKw := by
  have reserved : ∀ k : Kind, k.isModifier = true → k.isReserved = true := by decide
  have only : ∀ p ∈ Kind.reserved, p.1 = "static" ↔ p.2 = .staticKw := by decide
  exact only _ (spelled (reserved _ yes))

/-- No modifier has the text `class`. -/
theorem Spelled.text_ne_class {t : Token} (spelled : t.Spelled)
    (yes : t.kind.isModifier = true) : t.text ≠ "class" := by
  have reserved : ∀ k : Kind, k.isModifier = true → k.isReserved = true := by decide
  have none : ∀ p ∈ Kind.reserved, p.2.isModifier = true → p.1 ≠ "class" := by decide
  exact none _ (spelled (reserved _ yes)) yes

/-! ## The stream -/

theorem spelled_split {t : Token} (spelled : t.Spelled) : ∀ u ∈ t.split, u.Spelled := by
  have angle : ∀ c, ((Kind.ofAngle? c).getD .operator).isReserved = false := by
    intro c
    unfold Kind.ofAngle?
    split <;> rfl
  intro u mem
  rcases split_cases mem with rfl | ⟨c, kind⟩
  · exact spelled
  · exact .of_not_reserved (kind ▸ angle c)

theorem spelled_markObservers {ts : List Token} (spelled : ∀ t ∈ ts, t.Spelled) :
    ∀ t ∈ markObservers ts, t.Spelled := by
  intro u mem
  rcases markObservers_cases mem with plain | ⟨t, -, rfl⟩
  · exact spelled u plain
  · exact .of_not_reserved rfl

end Token

/-! ## Lexing -/

open Token

/-- Lexing finds a reserved kind only at its word. -/
theorem Lexical.mem_reserved_of_kind? {l : Lexical} {text : List Char} {k : Kind}
    (kind : l.kind? text = some k) (yes : k.isReserved = true) :
    (String.ofList text, k) ∈ Kind.reserved := by
  have only : ∀ l : Lexical, ∀ k ∈ l.kinds, k.isReserved = true → l = .word := by
    intro l
    cases l <;> decide
  obtain rfl := only l k (mem_kinds kind) yes
  obtain rfl := Option.some.inj kind
  rcases Kind.ofWord_cases (String.ofList text) with is | mem
  · rw [is] at yes
    cases yes
  · exact mem

theorem spelled_lexFrom (fuel : Nat) (p : Position) (layout : String) (cs : List Char) :
    ∀ t ∈ (lexFrom fuel p layout cs).tokens, t.Spelled := by
  intro t mem yes
  obtain ⟨l, kind⟩ := exists_kind? fuel p layout cs t mem
  have spelled := Lexical.mem_reserved_of_kind? kind yes
  rwa [String.ofList_toList] at spelled

/-- The reserved words that reach the grammar are spelled as they are. -/
theorem spelled_delivered (source : List Char) : ∀ t ∈ (lex source).delivered, t.Spelled := by
  have split : ∀ t ∈ (lex source).tokens.flatMap Token.split, t.Spelled := by
    intro t mem
    obtain ⟨whole, from', piece⟩ := List.mem_flatMap.mp mem
    exact spelled_split (spelled_lexFrom _ _ _ _ whole from') t piece
  intro t mem
  exact spelled_markObservers split t ((lex source).delivered_front.subset mem)

end Conformance
