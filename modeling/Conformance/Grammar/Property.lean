import Conformance.Grammar.Head
import Conformance.Grammar.TypeTree

/-!
# Properties

A property declaration binds one or more patterns behind `let` or `var`.

A binding with an initializer may end in observers.  One without may end in
observers or in accessors.  Which of the two a brace opens is known from the
token stream, where it is an observer brace or a plain one.  Behind an
initializer a plain brace never comes up: it is part of the expression.
-/

namespace Conformance.Grammar

/-! ## Patterns -/

/-- The parts of a pattern. -/
inductive PatternPart where
  /-- A whole pattern. -/
  | whole
  /-- What a tuple holds. -/
  | elements
  /-- The further elements of a tuple. -/
  | more
deriving DecidableEq, Repr

/-- The syntax of a part of a pattern: a name, or a tuple of patterns. -/
inductive PatternTree : PatternPart → Type where
  | name (word : Word Kind.isIdentifier) : PatternTree .whole
  | tuple (opening : Tok .leftParen) (elements : PatternTree .elements)
      (closing : Tok .rightParen) : PatternTree .whole
  | none : PatternTree .elements
  | some (first : PatternTree .whole) (others : PatternTree .more) : PatternTree .elements
  | last : PatternTree .more
  | more (comma : Tok .comma) (pattern : PatternTree .whole) (others : PatternTree .more) :
      PatternTree .more

namespace PatternTree

/-- The tokens of a part of a pattern. -/
def tokens : {p : PatternPart} → PatternTree p → List Token
  | _, name word => [word.val]
  | _, tuple opening elements closing => opening.val :: elements.tokens ++ [closing.val]
  | _, none => []
  | _, some first others => first.tokens ++ others.tokens
  | _, last => []
  | _, more comma pattern others => comma.val :: pattern.tokens ++ others.tokens

/-- A part of a pattern.  Each level of the tree takes one unit of fuel. -/
def parse : (fuel : Nat) → (p : PatternPart) → Parser (PatternTree p)
  | 0, _ => Parser.stuck
  | fuel + 1, .whole => do
    if (← Parser.peek) == Option.some .leftParen then
      let opening ← Parser.token .leftParen
      let elements ← parse fuel .elements
      let closing ← Parser.token .rightParen
      pure (tuple opening elements closing)
    else name <$> Parser.word Kind.isIdentifier
  | fuel + 1, .elements => do
    if (← Parser.peek) == Option.some .rightParen then pure none
    else
      let first ← parse fuel .whole
      let others ← parse fuel .more
      pure (some first others)
  | fuel + 1, .more => do
    if (← Parser.peek) == Option.some .comma then
      let comma ← Parser.token .comma
      let pattern ← parse fuel .whole
      let others ← parse fuel .more
      pure (more comma pattern others)
    else pure last

end PatternTree

/-- A pattern. -/
abbrev BindingPattern := PatternTree .whole

/-- The name that a pattern binds, if it is no tuple. -/
def BindingPattern.name? : BindingPattern → Option String
  | .name word => some word.text
  | .tuple .. => none

/-! ## Bindings -/

/-- A pattern with its type, its value and the code behind it. -/
inductive Binding where
  /-- A binding with perhaps an initializer and observers. -/
  | plain (pattern : BindingPattern) (clause : Option TypeClause)
      (initializer : Option Initializer) (observers : Option (Group .observer))
  /-- A binding with accessors. -/
  | computed (pattern : BindingPattern) (clause : Option TypeClause)
      (accessors : Group .brace)

namespace Binding

/-- The tokens of a binding. -/
def tokens : Binding → List Token
  | plain pattern clause initializer observers =>
    pattern.tokens ++ optionTokens TypeClause.tokens clause ++
      optionTokens Initializer.tokens initializer ++ optionTokens Group.tokens observers
  | computed pattern clause accessors =>
    pattern.tokens ++ optionTokens TypeClause.tokens clause ++ accessors.tokens

/-- A binding. -/
def parse (fuel : Nat) : Parser Binding := do
  let pattern ← PatternTree.parse fuel .whole
  let clause ← TypeClause.parse? fuel
  if (← Parser.peek) == some .leftBrace then
    computed pattern clause <$> Group.parse .brace fuel
  else
    let initializer ← Initializer.parse? fuel
    let observers ← Group.parse? .observer fuel
    pure (plain pattern clause initializer observers)

end Binding

/-! ## Property declarations -/

/-- A property declaration. -/
structure Property where
  /-- Attributes and modifiers. -/
  head : Head
  /-- The word `class`, which makes the property one of the type. -/
  classWord : Option (Tok .classKw)
  /-- `let` or `var`. -/
  binder : Word Kind.isBinder
  /-- The bindings. -/
  bindings : Listed Binding

namespace Property

/-- The tokens of a property declaration. -/
def tokens (p : Property) : List Token :=
  p.head.tokens ++ optionTokens (fun w => [w.val]) p.classWord ++
    p.binder.val :: p.bindings.tokens Binding.tokens

/-- The first token behind the head. -/
def keyword (p : Property) : Token :=
  match p.classWord with
  | some w => w.val
  | none => p.binder.val

/-- A property declaration, from behind its head. -/
def parse (fuel : Nat) (head : Head) : Parser Property := do
  let classWord ← Parser.optional (· == .classKw) (Parser.token .classKw)
  let binder ← Parser.word Kind.isBinder
  let bindings ← Parser.listed (Binding.parse fuel) fuel
  pure ⟨head, classWord, binder, bindings⟩

end Property

end Conformance.Grammar
