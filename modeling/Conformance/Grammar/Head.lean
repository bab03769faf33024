import Conformance.Grammar.Group

/-!
# Attributes and modifiers

The head of a declaration: attributes such as `@objc(name)`, then modifiers such
as `public` and `private(set)`, in this order.
-/

namespace Conformance.Grammar

/-! ## Attributes -/

/-- An attribute with perhaps its arguments. -/
structure Attribute where
  /-- The sign. -/
  sign : Tok .atSign
  /-- The name. -/
  name : Tok .name
  /-- The arguments. -/
  arguments : Option (Group .paren)

namespace Attribute

/-- The tokens of an attribute. -/
def tokens (a : Attribute) : List Token :=
  a.sign.val :: a.name.val :: optionTokens Group.tokens a.arguments

/-- The attribute as it stands in the source. -/
def text (a : Attribute) : String := Token.stretch a.tokens

/-- An attribute. -/
def parse (fuel : Nat) : Parser Attribute := do
  let sign ← Parser.token .atSign
  let name ← Parser.token .name
  let arguments ← Group.parse? .paren fuel
  pure ⟨sign, name, arguments⟩

end Attribute

/-! ## Modifiers -/

/-- A modifier with perhaps a detail in parentheses. -/
inductive Modifier where
  | plain (word : Word Kind.isModifier)
  | detailed (word : Word Kind.takesDetail) (opening : Tok .leftParen) (detail : Tok .name)
      (closing : Tok .rightParen)

namespace Modifier

/-- The tokens of a modifier. -/
def tokens : Modifier → List Token
  | plain word => [word.val]
  | detailed word opening detail closing =>
    [word.val, opening.val, detail.val, closing.val]

/-- The modifier without any layout. -/
def text : Modifier → String
  | plain word => word.text
  | detailed word _ detail _ => word.text ++ "(" ++ detail.text ++ ")"

/-- A modifier.  A parenthesis behind a word that takes a detail opens it. -/
def parse : Parser Modifier := do
  if (← Parser.peek).any Kind.takesDetail && (← Parser.peekSecond) == some .leftParen then
    let word ← Parser.word Kind.takesDetail
    let opening ← Parser.token .leftParen
    let detail ← Parser.token .name
    let closing ← Parser.token .rightParen
    pure (detailed word opening detail closing)
  else plain <$> Parser.word Kind.isModifier

end Modifier

/-! ## Heads -/

/-- What stands in front of the keyword of a declaration. -/
structure Head where
  /-- The attributes. -/
  attributes : List Attribute
  /-- The modifiers. -/
  modifiers : List Modifier

namespace Head

/-- The tokens of a head. -/
def tokens (h : Head) : List Token :=
  h.attributes.flatMap Attribute.tokens ++ h.modifiers.flatMap Modifier.tokens

/-- Where a declaration with this head begins: at the head's first token, at the keyword if
there is none. -/
def start (h : Head) (keyword : Token) : Position := (h.tokens.headD keyword).start

/-- Attributes and modifiers as long as there are any. -/
def parse (fuel : Nat) : Parser Head := do
  let attributes ← Parser.many (· == .atSign) (Attribute.parse fuel) fuel
  let modifiers ← Parser.many Kind.isModifier Modifier.parse fuel
  pure ⟨attributes, modifiers⟩

end Head

end Conformance.Grammar
