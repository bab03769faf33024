import Conformance.Grammar.Parser
import Conformance.Text.Blank

/-!
# Types as written

The syntax of a type.  No type is ever resolved, so a type is known by its
tokens alone; the tree says how they hang together.

The parts of a type are one family of trees indexed by `TypePart`, and one
parser reads them all.  A name at the front is the start of a prefixed type, as
in `some P` and `inout [Int]`, if a name or an opening bracket follows, and else
of a path.  In a tuple a name may also be a label: two labels are told from a
prefixed type by the word behind the name, and by the colon behind the second
name.
-/

namespace Conformance.Grammar

/-- The parts of a type. -/
inductive TypePart where
  /-- A whole type. -/
  | whole
  /-- The further members of a composition. -/
  | conjuncts
  /-- A type without arrow and ampersand. -/
  | unit
  /-- A unit without the marks behind it. -/
  | primary
  /-- The further identifiers of a path. -/
  | path
  /-- A name with perhaps generic arguments. -/
  | identifier
  /-- The further generic arguments. -/
  | arguments
  /-- The elements of a tuple. -/
  | elements
  /-- One element of a tuple. -/
  | element
  /-- The further elements of a tuple. -/
  | moreElements
deriving DecidableEq, Repr

/-- The syntax of a part of a type. -/
inductive TypeTree : TypePart → Type where
  | attributed (sign : Tok .atSign) (name : Tok .name) (type : TypeTree .whole) : TypeTree .whole
  | composed (unit : TypeTree .unit) (more : TypeTree .conjuncts) : TypeTree .whole
  | function (unit : TypeTree .unit) (effects : List (Word Kind.isEffect)) (arrow : Tok .arrow)
      (result : TypeTree .whole) : TypeTree .whole
  | noConjunct : TypeTree .conjuncts
  | conjunct (sign : Tok .ampersand) (unit : TypeTree .unit) (more : TypeTree .conjuncts) :
      TypeTree .conjuncts
  | marked (primary : TypeTree .primary) (marks : List (Word Kind.isPostfix)) : TypeTree .unit
  | named (first : TypeTree .identifier) (path : TypeTree .path) : TypeTree .primary
  | array (opening : Tok .leftSquare) (element : TypeTree .whole) (closing : Tok .rightSquare) :
      TypeTree .primary
  | dictionary (opening : Tok .leftSquare) (key : TypeTree .whole) (colon : Tok .colon)
      (value : TypeTree .whole) (closing : Tok .rightSquare) : TypeTree .primary
  | tuple (opening : Tok .leftParen) (elements : TypeTree .elements)
      (closing : Tok .rightParen) : TypeTree .primary
  | prefixed (word : Tok .name) (primary : TypeTree .primary) : TypeTree .primary
  | pathEnd : TypeTree .path
  | member (dot : Tok .dot) (identifier : TypeTree .identifier) (path : TypeTree .path) :
      TypeTree .path
  | plain (name : Tok .name) : TypeTree .identifier
  | generic (name : Tok .name) (opening : Tok .leftAngle) (first : TypeTree .whole)
      (others : TypeTree .arguments) (closing : Tok .rightAngle) : TypeTree .identifier
  | noArgument : TypeTree .arguments
  | argument (comma : Tok .comma) (type : TypeTree .whole) (others : TypeTree .arguments) :
      TypeTree .arguments
  | noElement : TypeTree .elements
  | someElements (first : TypeTree .element) (others : TypeTree .moreElements) :
      TypeTree .elements
  | unlabelled (type : TypeTree .whole) : TypeTree .element
  | labelled (label : Word Kind.isIdentifier) (colon : Tok .colon) (type : TypeTree .whole) :
      TypeTree .element
  | relabelled (outer : Tok .name) (inner : Word Kind.isIdentifier) (colon : Tok .colon)
      (type : TypeTree .whole) : TypeTree .element
  | lastElement : TypeTree .moreElements
  | moreElements (comma : Tok .comma) (element : TypeTree .element)
      (others : TypeTree .moreElements) : TypeTree .moreElements

namespace TypeTree

/-- The tokens of a part of a type. -/
def tokens : {p : TypePart} → TypeTree p → List Token
  | _, attributed sign name type => sign.val :: name.val :: type.tokens
  | _, composed unit more => unit.tokens ++ more.tokens
  | _, function unit effects arrow result =>
    unit.tokens ++ effects.map Subtype.val ++ arrow.val :: result.tokens
  | _, noConjunct => []
  | _, conjunct sign unit more => sign.val :: unit.tokens ++ more.tokens
  | _, marked primary marks => primary.tokens ++ marks.map Subtype.val
  | _, named first path => first.tokens ++ path.tokens
  | _, array opening element closing => opening.val :: element.tokens ++ [closing.val]
  | _, dictionary opening key colon value closing =>
    opening.val :: key.tokens ++ colon.val :: value.tokens ++ [closing.val]
  | _, tuple opening elements closing => opening.val :: elements.tokens ++ [closing.val]
  | _, prefixed word primary => word.val :: primary.tokens
  | _, pathEnd => []
  | _, member dot identifier path => dot.val :: identifier.tokens ++ path.tokens
  | _, plain name => [name.val]
  | _, generic name opening first others closing =>
    name.val :: opening.val :: first.tokens ++ others.tokens ++ [closing.val]
  | _, noArgument => []
  | _, argument comma type others => comma.val :: type.tokens ++ others.tokens
  | _, noElement => []
  | _, someElements first others => first.tokens ++ others.tokens
  | _, unlabelled type => type.tokens
  | _, labelled label colon type => label.val :: colon.val :: type.tokens
  | _, relabelled outer inner colon type =>
    outer.val :: inner.val :: colon.val :: type.tokens
  | _, lastElement => []
  | _, moreElements comma element others => comma.val :: element.tokens ++ others.tokens

/-! ## Choices -/

/-- Whether a kind may start a primary type. -/
def startsPrimary : Kind → Bool
  | .name | .leftSquare | .leftParen => true
  | _ => false

/-- Whether the arrow of a function type, or an effect in front of it, comes next. -/
def startsArrow (k : Kind) : Bool := k.isEffect || k == .arrow

/-- The ways of writing an element of a tuple. -/
inductive ElementForm where
  | unlabelled | labelled | relabelled

/-- The form of an element, by its first three kinds. -/
def elementForm (first second third : Option Kind) : ElementForm :=
  if first.any Kind.isSoftName then .labelled
  else if first == some .name then
    if second == some .colon then .labelled
    else if second.any Kind.isSoftName then .relabelled
    else if second == some .name && third == some .colon then .relabelled
    else .unlabelled
  else .unlabelled

/-- The kind of the token two behind the next one, without reading any. -/
def peekThird : Parser (Option Kind) := fun ts => .done (ts[2]?.map Token.kind) ts

theorem peekThird_bind {β : Type} (f : Option Kind → Parser β) (ts : List Token) :
    (peekThird >>= f) ts = f (ts[2]?.map Token.kind) ts := rfl

/-! ## Reading -/

/-- A primary type in square brackets. -/
def parseSquare (whole : Parser (TypeTree .whole)) : Parser (TypeTree .primary) := do
  let opening ← Parser.token .leftSquare
  let type ← whole
  if (← Parser.peek) == some .colon then
    let colon ← Parser.token .colon
    let value ← whole
    let closing ← Parser.token .rightSquare
    pure (dictionary opening type colon value closing)
  else
    let closing ← Parser.token .rightSquare
    pure (array opening type closing)

/-- A primary type in parentheses. -/
def parseTuple (elements : Parser (TypeTree .elements)) : Parser (TypeTree .primary) := do
  let opening ← Parser.token .leftParen
  let elements ← elements
  let closing ← Parser.token .rightParen
  pure (tuple opening elements closing)

/-- A primary type that starts with a name. -/
def parseNamed (primary : Parser (TypeTree .primary)) (identifier : Parser (TypeTree .identifier))
    (path : Parser (TypeTree .path)) : Parser (TypeTree .primary) := do
  if (← Parser.peekSecond).any startsPrimary then
    let word ← Parser.token .name
    let primary ← primary
    pure (prefixed word primary)
  else
    let first ← identifier
    let path ← path
    pure (named first path)

/-- A part of a type.  Each level of the tree takes one unit of fuel, and there are fewer than
eight levels for a token. -/
def parse : (fuel : Nat) → (p : TypePart) → Parser (TypeTree p)
  | 0, _ => Parser.stuck
  | fuel + 1, .whole => do
    if (← Parser.peek) == some .atSign then
      let sign ← Parser.token .atSign
      let name ← Parser.token .name
      let type ← parse fuel .whole
      pure (attributed sign name type)
    else
      let unit ← parse fuel .unit
      if (← Parser.peek).any startsArrow then
        let effects ← Parser.many Kind.isEffect (Parser.word Kind.isEffect) fuel
        let arrow ← Parser.token .arrow
        let result ← parse fuel .whole
        pure (function unit effects arrow result)
      else
        let more ← parse fuel .conjuncts
        pure (composed unit more)
  | fuel + 1, .conjuncts => do
    if (← Parser.peek) == some .ampersand then
      let sign ← Parser.token .ampersand
      let unit ← parse fuel .unit
      let more ← parse fuel .conjuncts
      pure (conjunct sign unit more)
    else pure noConjunct
  | fuel + 1, .unit => do
    let primary ← parse fuel .primary
    let marks ← Parser.many Kind.isPostfix (Parser.word Kind.isPostfix) fuel
    pure (marked primary marks)
  | fuel + 1, .primary => do
    match ← Parser.peek with
    | some .leftSquare => parseSquare (parse fuel .whole)
    | some .leftParen => parseTuple (parse fuel .elements)
    | _ => parseNamed (parse fuel .primary) (parse fuel .identifier) (parse fuel .path)
  | fuel + 1, .path => do
    if (← Parser.peek) == some .dot then
      let dot ← Parser.token .dot
      let identifier ← parse fuel .identifier
      let path ← parse fuel .path
      pure (member dot identifier path)
    else pure pathEnd
  | fuel + 1, .identifier => do
    let name ← Parser.token .name
    if (← Parser.peek) == some .leftAngle then
      let opening ← Parser.token .leftAngle
      let first ← parse fuel .whole
      let others ← parse fuel .arguments
      let closing ← Parser.token .rightAngle
      pure (generic name opening first others closing)
    else pure (plain name)
  | fuel + 1, .arguments => do
    if (← Parser.peek) == some .comma then
      let comma ← Parser.token .comma
      let type ← parse fuel .whole
      let others ← parse fuel .arguments
      pure (argument comma type others)
    else pure noArgument
  | fuel + 1, .elements => do
    if (← Parser.peek) == some .rightParen then pure noElement
    else
      let first ← parse fuel .element
      let others ← parse fuel .moreElements
      pure (someElements first others)
  | fuel + 1, .element => do
    match elementForm (← Parser.peek) (← Parser.peekSecond) (← peekThird) with
    | .unlabelled => unlabelled <$> parse fuel .whole
    | .labelled =>
      let label ← Parser.word Kind.isIdentifier
      let colon ← Parser.token .colon
      let type ← parse fuel .whole
      pure (labelled label colon type)
    | .relabelled =>
      let outer ← Parser.token .name
      let inner ← Parser.word Kind.isIdentifier
      let colon ← Parser.token .colon
      let type ← parse fuel .whole
      pure (relabelled outer inner colon type)
  | fuel + 1, .moreElements => do
    if (← Parser.peek) == some .comma then
      let comma ← Parser.token .comma
      let element ← parse fuel .element
      let others ← parse fuel .moreElements
      pure (moreElements comma element others)
    else pure lastElement

end TypeTree

/-- A type. -/
abbrev TypeSyntax := TypeTree .whole

namespace TypeSyntax

/-- A type. -/
def parse (fuel : Nat) : Parser TypeSyntax := TypeTree.parse fuel .whole

/-- The type as it stands in the source, with its blanks collapsed. -/
def text (t : TypeSyntax) : String := Text.squash (Token.stretch t.tokens)

end TypeSyntax

/-- A type behind a colon. -/
structure TypeClause where
  /-- The colon. -/
  colon : Tok .colon
  /-- The type. -/
  type : TypeSyntax

namespace TypeClause

/-- The tokens of a type clause. -/
def tokens (a : TypeClause) : List Token := a.colon.val :: a.type.tokens

/-- A type clause, if there is a colon. -/
def parse? (fuel : Nat) : Parser (Option TypeClause) :=
  Parser.optional (· == .colon) do
    let colon ← Parser.token .colon
    let type ← TypeSyntax.parse fuel
    pure ⟨colon, type⟩

end TypeClause

end Conformance.Grammar
