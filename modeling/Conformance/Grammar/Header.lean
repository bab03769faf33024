import Conformance.Grammar.Head
import Conformance.Grammar.TypeTree

/-!
# Headers of type declarations

Structures, classes, enumerations and actors have a *structured* header: generic
parameters, supertypes and a requirement clause, each optional and in this
order.  Protocols and extensions have a *loose* one, a run of atoms, since an
extension may name a nested or a specialised type.
-/

namespace Conformance.Grammar

/-! ## Generic parameters -/

/-- A generic parameter with perhaps a constraint. -/
structure GenericParameter where
  /-- The name. -/
  name : Tok .name
  /-- The constraint. -/
  constraint : Option TypeClause

namespace GenericParameter

/-- The tokens of a parameter. -/
def tokens (p : GenericParameter) : List Token :=
  p.name.val :: optionTokens TypeClause.tokens p.constraint

/-- A parameter. -/
def parse (fuel : Nat) : Parser GenericParameter := do
  let name ← Parser.token .name
  let constraint ← TypeClause.parse? fuel
  pure ⟨name, constraint⟩

end GenericParameter

/-- The generic parameters of a type. -/
structure GenericClause where
  /-- The opening angle. -/
  opening : Tok .leftAngle
  /-- The parameters. -/
  parameters : Listed GenericParameter
  /-- The closing angle. -/
  closing : Tok .rightAngle

namespace GenericClause

/-- The tokens of a clause. -/
def tokens (c : GenericClause) : List Token :=
  c.opening.val :: c.parameters.tokens GenericParameter.tokens ++ [c.closing.val]

/-- A clause. -/
def parse (fuel : Nat) : Parser GenericClause := do
  let opening ← Parser.token .leftAngle
  let parameters ← Parser.listed (GenericParameter.parse fuel) fuel
  let closing ← Parser.token .rightAngle
  pure ⟨opening, parameters, closing⟩

end GenericClause

/-! ## Supertypes and requirements -/

/-- The supertypes of a type. -/
structure Inheritance where
  /-- The colon. -/
  colon : Tok .colon
  /-- The types. -/
  types : Listed TypeSyntax

namespace Inheritance

/-- The tokens of a clause. -/
def tokens (i : Inheritance) : List Token := i.colon.val :: i.types.tokens TypeTree.tokens

/-- A clause. -/
def parse (fuel : Nat) : Parser Inheritance := do
  let colon ← Parser.token .colon
  let types ← Parser.listed (TypeSyntax.parse fuel) fuel
  pure ⟨colon, types⟩

end Inheritance

/-- What a type requires of its parameters. -/
structure WhereClause where
  /-- The keyword. -/
  keyword : Tok .whereKw
  /-- The first atom. -/
  first : HeaderAtom
  /-- The others. -/
  others : List HeaderAtom

namespace WhereClause

/-- The tokens of a clause. -/
def tokens (w : WhereClause) : List Token :=
  w.keyword.val :: w.first.tokens ++ w.others.flatMap Atom.tokens

/-- A clause. -/
def parse (fuel : Nat) : Parser WhereClause := do
  let keyword ← Parser.token .whereKw
  let first ← Atom.parse Kind.isHeaderWord Bracket.isRoundOrSquare fuel
  let others ← Atom.parseMany Kind.isHeaderWord Bracket.isRoundOrSquare fuel
  pure ⟨keyword, first, others⟩

end WhereClause

/-! ## Headers -/

/-- The header of a type declaration: all in front of its members. -/
inductive Header where
  | structured (head : Head) (keyword : Word Kind.isStructuredNominal) (name : Tok .name)
      (generics : Option GenericClause) (inheritance : Option Inheritance)
      (requirements : Option WhereClause)
  | loose (head : Head) (keyword : Word Kind.isLooseNominal) (name : Tok .name)
      (atoms : List HeaderAtom)

namespace Header

/-- Attributes and modifiers. -/
def head : Header → Head
  | structured head .. => head
  | loose head .. => head

/-- The keyword. -/
def keyword : Header → Token
  | structured _ keyword .. => keyword.val
  | loose _ keyword .. => keyword.val

/-- The name, of an extension the first part of it. -/
def name : Header → Tok .name
  | structured _ _ name .. => name
  | loose _ _ name _ => name

/-- The tokens of a header. -/
def tokens : Header → List Token
  | structured head keyword name generics inheritance requirements =>
    head.tokens ++ keyword.val :: name.val :: optionTokens GenericClause.tokens generics ++
      optionTokens Inheritance.tokens inheritance ++
      optionTokens WhereClause.tokens requirements
  | loose head keyword name atoms =>
    head.tokens ++ keyword.val :: name.val :: atoms.flatMap Atom.tokens

/-- Where the declaration begins. -/
def start (h : Header) : Position := h.head.start h.keyword

/-- A structured header, from behind its head. -/
def parseStructured (fuel : Nat) (head : Head) : Parser Header := do
  let keyword ← Parser.word Kind.isStructuredNominal
  let name ← Parser.token .name
  let generics ← Parser.optional (· == .leftAngle) (GenericClause.parse fuel)
  let inheritance ← Parser.optional (· == .colon) (Inheritance.parse fuel)
  let requirements ← Parser.optional (· == .whereKw) (WhereClause.parse fuel)
  pure (structured head keyword name generics inheritance requirements)

/-- A loose header, from behind its head. -/
def parseLoose (fuel : Nat) (head : Head) : Parser Header := do
  let keyword ← Parser.word Kind.isLooseNominal
  let name ← Parser.token .name
  let atoms ← Atom.parseMany Kind.isHeaderWord Bracket.isRoundOrSquare fuel
  pure (loose head keyword name atoms)

end Header

end Conformance.Grammar
