import Conformance.Proofs.Grammar.ItemCompleteness
import Conformance.Proofs.Grammar.PromptType

/-!
# The parsers of declarations are prompt

Heads, headers, and all declarations without declarations in them.  A declaration is read
from behind its head, which has been read before it is known what is being declared.
-/

namespace Conformance.Grammar

variable {m n fuel fuel' : Nat}

/-! ## Heads -/

theorem Attribute.prompt (enough : m ≤ fuel + 1) (enough' : n ≤ fuel' + 1) :
    IsPrompt tokens m n (parse fuel) (parse fuel') := by
  refine .tokenThen fun sign => .tokenThen fun name => ?_
  exact .bind (Group.prompt? .paren (by omega) (by omega)) fun arguments => .pure rfl

theorem Modifier.prompt : IsPrompt tokens m n parse parse := by
  let choice (detail : Bool) : Parser Modifier :=
    if detail then do
      let word ← Parser.word Kind.takesDetail
      let opening ← Parser.token .leftParen
      let detail ← Parser.token .name
      let closing ← Parser.token .rightParen
      pure (detailed word opening detail closing)
    else plain <$> Parser.word Kind.isModifier
  have each (detail : Bool) : IsPrompt tokens m n (choice detail) (choice detail) := by
    refine .ite (.wordThen (k := .openKw) rfl fun word => .tokenThen fun opening => ?_)
      ((Prompt.word (k := .openKw) rfl).map fun _ => rfl)
    exact .tokenThen fun detail => .tokenThen fun closing => .pure rfl
  refine .lookTwice (fun a b => a.any Kind.takesDetail && b == some .leftParen) each
    fun t w _ => ?_
  -- A word that takes a detail is taken in either case.
  cases takes : t.kind.takesDetail with
  | false => simp [takes]
  | true =>
    have words : ∀ k : Kind, k.takesDetail = true → k.isModifier = true := by decide
    have taken (detail : Bool) : (choice detail [t]).rest = [] := by
      cases detail with
      | true =>
        have read := Parser.word_cons ⟨t, takes⟩ []
        exact congrArg Reading.rest (Parser.bind_done read _)
      | false =>
        have read := Parser.word_cons ⟨t, words _ takes⟩ []
        exact congrArg Reading.rest (Parser.map_done read plain)
    exact .inr fun _ => taken _

theorem Head.prompt (enough : m ≤ fuel + 1) (enough' : n ≤ fuel' + 1) :
    IsPrompt tokens m n (parse fuel) (parse fuel') := by
  have some (a : Attribute) : a.tokens ≠ [] := by simp [Attribute.tokens]
  have some' (m : Modifier) : m.tokens ≠ [] := by cases m <;> simp [Modifier.tokens]
  refine .bind (.many (Attribute.prompt enough enough') some enough enough')
    fun attributes => ?_
  exact .bind (.many Modifier.prompt some' (by omega) (by omega)) fun modifiers => .pure rfl

/-! ## Headers -/

theorem GenericParameter.prompt (enough : 8 * m ≤ fuel + 8) (enough' : 8 * n ≤ fuel' + 8) :
    IsPrompt tokens m n (parse fuel) (parse fuel') := by
  refine .tokenThen fun name => ?_
  exact .bind (TypeClause.prompt? (by omega) (by omega)) fun constraint => .pure rfl

theorem GenericClause.prompt (enough : 8 * m ≤ fuel + 8) (enough' : 8 * n ≤ fuel' + 8) :
    IsPrompt tokens m n (parse fuel) (parse fuel') := by
  refine .tokenThen fun opening => .bind (.listed (GenericParameter.prompt (by omega) (by omega))
    (by omega) (by omega)) fun parameters => ?_
  exact .tokenThen fun closing => .pure (by simp [tokens])

theorem Inheritance.prompt (enough : 8 * m ≤ fuel + 8) (enough' : 8 * n ≤ fuel' + 8) :
    IsPrompt tokens m n (parse fuel) (parse fuel') := by
  refine .tokenThen fun colon => ?_
  exact .bind (.listed (TypeSyntax.prompt (by omega) (by omega)) (by omega) (by omega)) fun types =>
    .pure rfl

theorem WhereClause.prompt (enough : m ≤ fuel + 1) (enough' : n ≤ fuel' + 1) :
    IsPrompt tokens m n (parse fuel) (parse fuel') := by
  refine .tokenThen fun keyword => ?_
  refine .bind (Atom.prompt (k := .name) rfl (by omega) (by omega)) fun first => ?_
  exact .bind (Atom.prompt_many (k := .name) rfl (by omega) (by omega)) fun others =>
    .pure (by simp [tokens])

theorem Header.prompt_structured (head : Head) (enough : 8 * m ≤ fuel + 8)
    (enough' : 8 * n ≤ fuel' + 8) :
    Prompt tokens (Opens tokens) head.tokens m n (parseStructured fuel head)
      (parseStructured fuel' head) := by
  refine .wordThen (k := .structKw) rfl fun keyword => .tokenThen fun name => ?_
  refine .bind (.optional (GenericClause.prompt (by omega) (by omega))) fun generics => ?_
  refine .bind (.optional (Inheritance.prompt (by omega) (by omega))) fun inheritance => ?_
  exact .bind (.optional (WhereClause.prompt (by omega) (by omega))) fun requirements =>
    .pure (by simp [tokens])

theorem Header.prompt_loose (head : Head) (enough : m ≤ fuel + 1) (enough' : n ≤ fuel' + 1) :
    Prompt tokens (Opens tokens) head.tokens m n (parseLoose fuel head)
      (parseLoose fuel' head) := by
  refine .wordThen (k := .extensionKw) rfl fun keyword => .tokenThen fun name => ?_
  exact .bind (Atom.prompt_many (k := .name) rfl (by omega) (by omega)) fun atoms =>
    .pure (by simp [tokens])

/-! ## Properties -/

namespace PatternTree

/-- Every part of a pattern can be written. -/
theorem opens_part (p : PatternPart) : Opens (tokens (p := p)) [] := by
  cases p with
  | whole => exact ⟨name ⟨TypeTree.sample .name, rfl⟩, _, rfl⟩
  | elements => exact ⟨none, _, rfl⟩
  | more => exact ⟨last, _, rfl⟩

theorem prompt (p : PatternPart) (enough : 8 * m + rank p ≤ fuel + 7)
    (enough' : 8 * n + rank p ≤ fuel' + 7) :
    IsPrompt tokens m n (parse fuel p) (parse fuel' p) := by
  induction fuel generalizing p m n fuel' with
  | zero =>
    obtain rfl : m = 0 := by omega
    exact .nothing (opens_part p)
  | succ fuel ih =>
    have more : ∀ {n fuel' : Nat}, 8 * n + rank p ≤ fuel' + 8 →
        IsPrompt tokens m n (parse (fuel + 1) p) (parse (fuel' + 1) p) := by
      intro n fuel' enough'
      cases p with
      | whole =>
        simp only [rank] at enough enough'
        refine .peek fun k => .ite (.tokenThen fun opening => ?_)
          ((Prompt.word (k := .name) rfl).map fun _ => rfl)
        refine .bind (ih .elements (by simp only [rank]; omega) (by simp only [rank]; omega))
          fun elements => ?_
        exact .tokenThen fun closing => .pure (by simp [tokens])
      | elements =>
        simp only [rank] at enough enough'
        refine .peek fun k => .ite (.pure rfl) ?_
        refine .bind (ih .whole (by simp only [rank]; omega) (by simp only [rank]; omega))
          fun first => ?_
        have some := first.starts.length_pos
        exact .bind (ih .more (by simp only [rank]; omega) (by simp only [rank]; omega))
          fun others => .pure rfl
      | more =>
        simp only [rank] at enough enough'
        refine .peek fun k => .ite (.tokenThen fun comma => ?_) (.pure rfl)
        refine .bind (ih .whole (by simp only [rank]; omega) (by simp only [rank]; omega))
          fun pattern => ?_
        exact .bind (ih .more (by simp only [rank]; omega) (by simp only [rank]; omega))
          fun others => .pure (by simp [tokens])
    cases fuel' with
    | zero =>
      have few : rank p ≤ 1 := by cases p <;> decide
      exact (@more 0 0 (by omega)).other (by omega)
    | succ fuel' => exact more enough'

end PatternTree

theorem Binding.prompt (enough : 8 * m ≤ fuel + 4) (enough' : 8 * n ≤ fuel' + 4) :
    IsPrompt tokens m n (parse fuel) (parse fuel') := by
  refine .bind (PatternTree.prompt .whole (by simp only [PatternTree.rank]; omega)
    (by simp only [PatternTree.rank]; omega)) fun pattern => ?_
  refine .bind (TypeClause.prompt? (by omega) (by omega)) fun clause => .peek fun k => .ite ?_ ?_
  · exact .mapThen (Group.prompt .brace (by omega) (by omega)) fun g => rfl
  · refine .bind (Initializer.prompt? (by omega) (by omega)) fun initializer => ?_
    exact .bind (Group.prompt? .observer (by omega) (by omega)) fun observers =>
      .pure (by simp [tokens])

theorem Property.prompt (head : Head) (enough : 8 * m ≤ fuel + 4) (enough' : 8 * n ≤ fuel' + 4) :
    Prompt tokens (Opens tokens) head.tokens m n (parse fuel head) (parse fuel' head) := by
  refine .bind (.optional (.token .classKw)) fun classWord => ?_
  refine .wordThen (k := .letKw) rfl fun binder => ?_
  exact .bind (.listed (Binding.prompt (by omega) (by omega)) (by omega) (by omega)) fun bindings =>
    .pure (by simp [tokens])

/-! ## Cases -/

theorem SlotSyntax.prompt (enough : 8 * m ≤ fuel + 4) (enough' : 8 * n ≤ fuel' + 4) :
    IsPrompt tokens m n (parse fuel) (parse fuel') := by
  let choice (fuel : Nat) (label : Bool) : Parser SlotSyntax :=
    if label then do
      let label ← Parser.word Kind.isIdentifier
      let colon ← Parser.token .colon
      let type ← TypeSyntax.parse fuel
      let default ← Initializer.parse? fuel
      pure (labelled label colon type default)
    else do
      let type ← TypeSyntax.parse fuel
      let default ← Initializer.parse? fuel
      pure (positional type default)
  have each (label : Bool) : IsPrompt tokens m n (choice fuel label) (choice fuel' label) := by
    refine .ite (.wordThen (k := .name) rfl fun label => .tokenThen fun colon => ?_) ?_
    · refine .bind (TypeSyntax.prompt (by omega) (by omega)) fun type => ?_
      exact .bind (Initializer.prompt? (by omega) (by omega)) fun default =>
        .pure (by simp [tokens])
    · refine .bind (TypeSyntax.prompt (by omega) (by omega)) fun type => ?_
      exact .bind (Initializer.prompt? (by omega) (by omega)) fun default => .pure rfl
  refine .lookTwice (fun a b => a.any Kind.isSoftName || (a == some .name && b == some .colon)) each
    fun t w fits => ?_
  rw [List.length_cons] at fits
  -- A name is taken in either case.
  cases name : t.kind == .name with
  | false => simp [name]
  | true =>
    have names : ∀ k : Kind, (k == .name) = true → k.isIdentifier = true := by decide
    have taken (label : Bool) : (choice fuel' label [t]).rest = [] := by
      cases label with
      | true =>
        have read := Parser.word_cons ⟨t, names _ name⟩ []
        exact congrArg Reading.rest (Parser.bind_done read _)
      | false =>
        let type : TypeSyntax :=
          .composed (.marked (.named (.plain ⟨t, name⟩) .pathEnd) []) .noConjunct
        have read : Reads (TypeSyntax.parse fuel') TypeTree.tokens type [] :=
          type.reads (show 8 + 4 ≤ fuel' by omega) stops_nil
        exact congrArg Reading.rest (Parser.bind_done read _)
    exact .inr fun _ => taken _

theorem PayloadSyntax.prompt (enough : 8 * m ≤ fuel + 4) (enough' : 8 * n ≤ fuel' + 4) :
    IsPrompt tokens m n (parse fuel) (parse fuel') := by
  refine .tokenThen fun opening => ?_
  refine .bind (.optional (.listed (SlotSyntax.prompt (by omega) (by omega)) (by omega)
    (by omega))) fun slots => ?_
  exact .tokenThen fun closing => .pure (by simp [tokens])

theorem CaseSyntax.prompt (enough : 8 * m ≤ fuel + 4) (enough' : 8 * n ≤ fuel' + 4) :
    IsPrompt tokens m n (parse fuel) (parse fuel') := by
  refine .wordThen (k := .name) rfl fun name => ?_
  refine .bind (.optional (PayloadSyntax.prompt (by omega) (by omega))) fun payload => ?_
  exact .bind (Initializer.prompt? (by omega) (by omega)) fun raw => .pure (by simp [tokens])

theorem CaseGroup.prompt (head : Head) (enough : 8 * m ≤ fuel + 4) (enough' : 8 * n ≤ fuel' + 4) :
    Prompt tokens (Opens tokens) head.tokens m n (parse fuel head) (parse fuel' head) := by
  refine .tokenThen fun keyword => ?_
  exact .bind (.listed (CaseSyntax.prompt (by omega) (by omega)) (by omega) (by omega)) fun cases =>
    .pure (by simp [tokens])

/-! ## Other declarations -/

namespace Leaf

theorem prompt_function (head : Head) (enough : m ≤ fuel + 1) (enough' : n ≤ fuel' + 1) :
    Prompt tokens (Opens tokens) head.tokens m n (parseFunction fuel head)
      (parseFunction fuel' head) := by
  refine .bind (.optional (.token .classKw)) fun classWord => .tokenThen fun keyword => ?_
  refine .wordThen (k := .name) rfl fun name => ?_
  refine .bind (Signature.prompt (by omega) (by omega)) fun signature => ?_
  exact .bind (Group.prompt? .brace (by omega) (by omega)) fun body => .pure (by simp [tokens])

theorem prompt_constructor (head : Head) (enough : m ≤ fuel + 1) (enough' : n ≤ fuel' + 1) :
    Prompt tokens (Opens tokens) head.tokens m n (parseConstructor fuel head)
      (parseConstructor fuel' head) := by
  refine .tokenThen fun keyword => ?_
  refine .bind (Signature.prompt (by omega) (by omega)) fun signature => ?_
  exact .bind (Group.prompt? .brace (by omega) (by omega)) fun body => .pure (by simp [tokens])

theorem prompt_destructor (head : Head) (enough : m ≤ fuel + 1) (enough' : n ≤ fuel' + 1) :
    Prompt tokens (Opens tokens) head.tokens m n (parseDestructor fuel head)
      (parseDestructor fuel' head) := by
  refine .tokenThen fun keyword => ?_
  exact .bind (Group.prompt? .brace (by omega) (by omega)) fun body => .pure (by simp [tokens])

theorem prompt_subscript (head : Head) (enough : m ≤ fuel + 1) (enough' : n ≤ fuel' + 1) :
    Prompt tokens (Opens tokens) head.tokens m n (parseSubscript fuel head)
      (parseSubscript fuel' head) := by
  refine .tokenThen fun keyword => ?_
  refine .bind (Signature.prompt (by omega) (by omega)) fun signature => ?_
  exact .bind (Group.prompt? .brace (by omega) (by omega)) fun body => .pure (by simp [tokens])

theorem prompt_alias (head : Head) (enough : m ≤ fuel + 1) (enough' : n ≤ fuel' + 1) :
    Prompt tokens (Opens tokens) head.tokens m n (parseAlias fuel head)
      (parseAlias fuel' head) := by
  refine .wordThen (k := .typealiasKw) rfl fun keyword => .tokenThen fun name => ?_
  exact .bind (Signature.prompt (by omega) (by omega)) fun signature => .pure (by simp [tokens])

theorem prompt_import (head : Head) (enough : m ≤ fuel + 1) (enough' : n ≤ fuel' + 1) :
    Prompt tokens (Opens tokens) head.tokens m n (parseImport fuel head)
      (parseImport fuel' head) := by
  have step : IsPrompt (fun (s : Tok .dot × Word Kind.isIdentifier) => [s.1.val, s.2.val]) m n
      (do let dot ← Parser.token .dot; let word ← Parser.word Kind.isIdentifier; pure (dot, word))
      (do let dot ← Parser.token .dot; let word ← Parser.word Kind.isIdentifier; pure (dot, word)) :=
    .tokenThen fun dot => .wordThen (k := .name) rfl fun word => .pure rfl
  refine .tokenThen fun keyword => .bind (.optional (.word (k := .structKw) rfl)) fun what => ?_
  refine .tokenThen fun name => ?_
  refine .bind (.many (step.mono ?_ ?_) (by simp) (by omega) (by omega)) fun path => .pure ?_
  · omega
  · omega
  · simp [tokens, pathTokens]

end Leaf

end Conformance.Grammar
