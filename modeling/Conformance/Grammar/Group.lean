import Conformance.Grammar.Parser

/-!
# Balanced groups and runs of atoms

A *group* is a pair of brackets with any tokens between them, in which brackets
are balanced again.  Function bodies, accessor blocks, arguments and closures
are groups, and nothing in them matters but their balance.

An *atom* is a group or a single token of a class.  Signatures, loose headers
and expressions are runs of atoms, each with its own class of tokens and
brackets.  In an expression a dot takes a reserved word behind it along, if the
word may be a member: `.init` is one atom.
-/

namespace Conformance.Grammar

/-! ## Brackets -/

/-- The ways of opening a group. -/
inductive Bracket where
  | paren | square | brace | observer
deriving DecidableEq, Repr

namespace Bracket

/-- The kind of the opening token. -/
def opener : Bracket → Kind
  | paren => .leftParen
  | square => .leftSquare
  | brace => .leftBrace
  | observer => .observerBrace

/-- The kind of the closing token. -/
def closer : Bracket → Kind
  | paren => .rightParen
  | square => .rightSquare
  | brace | observer => .rightBrace

/-- The bracket that a kind opens. -/
def ofOpener? : Kind → Option Bracket
  | .leftParen => some paren
  | .leftSquare => some square
  | .leftBrace => some brace
  | .observerBrace => some observer
  | _ => none

@[simp] theorem ofOpener?_opener (b : Bracket) : ofOpener? b.opener = some b := by
  cases b <;> rfl

/-- Round and square brackets. -/
def isRoundOrSquare (b : Bracket) : Bool := b == paren || b == square

/-- All brackets but the observer brace. -/
def isPlain (b : Bracket) : Bool := b != observer

end Bracket

/-! ## Balanced runs -/

/-- A token that neither opens nor closes a group. -/
abbrev PlainWord := Word fun k => !k.isBracket

/-- A balanced run of tokens. -/
inductive Run where
  /-- No more tokens. -/
  | nil
  /-- A token that is no bracket, and more. -/
  | word (t : PlainWord) (rest : Run)
  /-- A group, and more. -/
  | group (b : Bracket) (opening : Tok b.opener) (body : Run) (closing : Tok b.closer)
      (rest : Run)

namespace Run

/-- The tokens of a run. -/
def tokens : Run → List Token
  | nil => []
  | word t rest => t.val :: rest.tokens
  | group _ opening body closing rest =>
    opening.val :: body.tokens ++ closing.val :: rest.tokens

/-- A balanced run, as long as it can be. -/
def parse : (fuel : Nat) → Parser Run
  | 0 => Parser.stuck
  | fuel + 1 => do
    match ← Parser.peek with
    | none => pure nil
    | some k =>
      if k.isBracket then
        match Bracket.ofOpener? k with
        | some b =>
          let opening ← Parser.token b.opener
          let body ← parse fuel
          let closing ← Parser.token b.closer
          let rest ← parse fuel
          pure (group b opening body closing rest)
        | none => pure nil
      else
        let t ← Parser.word _
        let rest ← parse fuel
        pure (word t rest)

/-- Whether a group in braces stands in the run, not counting those inside other groups. -/
def hasBraceGroup : Run → Bool
  | nil => false
  | word _ rest => rest.hasBraceGroup
  | group b _ _ _ rest => b == .brace || rest.hasBraceGroup

/-- The run behind the tokens of a class at its front. -/
def dropWords (p : Kind → Bool) : Run → Run
  | nil => nil
  | word t rest => if p t.val.kind then rest.dropWords p else word t rest
  | group b opening body closing rest => group b opening body closing rest

/-- The token at the front, if the run does not start with a group. -/
def firstWord? : Run → Option Token
  | word t _ => some t.val
  | _ => none

end Run

/-! ## Groups -/

/-- A balanced group. -/
structure Group (b : Bracket) where
  /-- The opening bracket. -/
  opening : Tok b.opener
  /-- What it holds. -/
  body : Run
  /-- The closing bracket. -/
  closing : Tok b.closer

namespace Group

variable {b : Bracket}

/-- The tokens of a group. -/
def tokens (g : Group b) : List Token := g.opening.val :: g.body.tokens ++ [g.closing.val]

/-- A group. -/
def parse (b : Bracket) (fuel : Nat) : Parser (Group b) := do
  let opening ← Parser.token b.opener
  let body ← Run.parse fuel
  let closing ← Parser.token b.closer
  pure ⟨opening, body, closing⟩

/-- A group, if a bracket opens one here. -/
def parse? (b : Bracket) (fuel : Nat) : Parser (Option (Group b)) :=
  Parser.optional (· == b.opener) (parse b fuel)

end Group

/-! ## Atoms -/

/-- A token of a class, or a group in brackets of a class. -/
inductive Atom (words : Kind → Bool) (brackets : Bracket → Bool) where
  /-- A token. -/
  | word (t : Word words)
  /-- A group. -/
  | group (b : Bracket) (admitted : brackets b = true) (g : Group b)

namespace Atom

variable {words : Kind → Bool} {brackets : Bracket → Bool}

/-- The tokens of an atom. -/
def tokens : Atom words brackets → List Token
  | word t => [t.val]
  | group _ _ g => g.tokens

/-- The token, if the atom is one. -/
def word? : Atom words brackets → Option Token
  | word t => some t.val
  | group .. => none

/-- Whether a kind may start an atom. -/
def starts (words : Kind → Bool) (brackets : Bracket → Bool) (k : Kind) : Bool :=
  words k || (Bracket.ofOpener? k).any brackets

/-- An atom. -/
def parse (words : Kind → Bool) (brackets : Bracket → Bool) (fuel : Nat) :
    Parser (Atom words brackets) := do
  match (← Parser.peek).bind Bracket.ofOpener? with
  | some b =>
    if h : brackets b = true then group b h <$> Group.parse b fuel else Parser.stuck
  | none => word <$> Parser.word words

/-- Atoms as long as the next token may start one. -/
def parseMany (words : Kind → Bool) (brackets : Bracket → Bool) (fuel : Nat) :
    Parser (List (Atom words brackets)) :=
  Parser.many (starts words brackets) (parse words brackets fuel) fuel

end Atom

/-- An atom of a signature. -/
abbrev SignatureAtom := Atom Kind.isSignatureWord Bracket.isRoundOrSquare

/-- The parameters, results and requirements of a declaration that is not looked into. -/
abbrev Signature := List SignatureAtom

/-- A signature. -/
def Signature.parse (fuel : Nat) : Parser Signature :=
  Atom.parseMany Kind.isSignatureWord Bracket.isRoundOrSquare fuel

/-- The tokens of a signature. -/
def Signature.tokens (s : Signature) : List Token := s.flatMap Atom.tokens

/-- An atom of a loose header. -/
abbrev HeaderAtom := Atom Kind.isHeaderWord Bracket.isRoundOrSquare

/-! ## Expressions -/

/-- An atom of an expression. -/
inductive ExpressionAtom where
  /-- A token or a group. -/
  | plain (a : Atom Kind.isExpressionWord Bracket.isPlain)
  /-- A dot with the reserved word behind it. -/
  | member (dot : Tok .dot) (name : Word Kind.isMemberWord)

namespace ExpressionAtom

/-- The tokens of an atom. -/
def tokens : ExpressionAtom → List Token
  | plain a => a.tokens
  | member dot name => [dot.val, name.val]

/-- Whether a kind may start an atom. -/
def starts : Kind → Bool := Atom.starts Kind.isExpressionWord Bracket.isPlain

/-- An atom.  A dot takes a member word along whenever there is one. -/
def parse (fuel : Nat) : Parser ExpressionAtom := do
  if (← Parser.peek) == some .dot && (← Parser.peekSecond).any Kind.isMemberWord then
    let dot ← Parser.token .dot
    let name ← Parser.word Kind.isMemberWord
    pure (member dot name)
  else plain <$> Atom.parse Kind.isExpressionWord Bracket.isPlain fuel

end ExpressionAtom

/-- An expression: a run of at least one atom. -/
structure Expression where
  /-- The first atom. -/
  first : ExpressionAtom
  /-- The others. -/
  others : List ExpressionAtom

namespace Expression

/-- The tokens of an expression. -/
def tokens (e : Expression) : List Token :=
  e.first.tokens ++ e.others.flatMap ExpressionAtom.tokens

/-- The expression as it stands in the source. -/
def text (e : Expression) : String := Token.stretch e.tokens

/-- An expression. -/
def parse (fuel : Nat) : Parser Expression := do
  let first ← ExpressionAtom.parse fuel
  let others ← Parser.many ExpressionAtom.starts (ExpressionAtom.parse fuel) fuel
  pure ⟨first, others⟩

end Expression

/-- An expression behind an equals sign. -/
structure Initializer where
  /-- The sign. -/
  equal : Tok .equal
  /-- The expression. -/
  value : Expression

namespace Initializer

/-- The tokens of an initializer. -/
def tokens (i : Initializer) : List Token := i.equal.val :: i.value.tokens

/-- An initializer, if there is an equals sign. -/
def parse? (fuel : Nat) : Parser (Option Initializer) :=
  Parser.optional (· == .equal) do
    let equal ← Parser.token .equal
    let value ← Expression.parse fuel
    pure ⟨equal, value⟩

end Initializer

end Conformance.Grammar
