import Conformance.Grammar.Head
import Conformance.Grammar.TypeTree

/-!
# Enumeration cases

A case declaration lists cases, each with perhaps a payload in parentheses and a
raw value.  A slot of a payload has a label if a name with a colon behind it
stands in front of the type.
-/

namespace Conformance.Grammar

/-! ## Slots -/

/-- A slot of a payload. -/
inductive SlotSyntax where
  | labelled (label : Word Kind.isIdentifier) (colon : Tok .colon) (type : TypeSyntax)
      (default : Option Initializer)
  | positional (type : TypeSyntax) (default : Option Initializer)

namespace SlotSyntax

/-- The tokens of a slot. -/
def tokens : SlotSyntax → List Token
  | labelled label colon type default =>
    label.val :: colon.val :: type.tokens ++ optionTokens Initializer.tokens default
  | positional type default => type.tokens ++ optionTokens Initializer.tokens default

/-- A slot.  A reserved word can only be a label, and a name is one in front of a colon. -/
def parse (fuel : Nat) : Parser SlotSyntax := do
  let first ← Parser.peek
  if first.any Kind.isSoftName ||
      (first == some .name && (← Parser.peekSecond) == some .colon) then
    let label ← Parser.word Kind.isIdentifier
    let colon ← Parser.token .colon
    let type ← TypeSyntax.parse fuel
    let default ← Initializer.parse? fuel
    pure (labelled label colon type default)
  else
    let type ← TypeSyntax.parse fuel
    let default ← Initializer.parse? fuel
    pure (positional type default)

end SlotSyntax

/-! ## Payloads -/

/-- The slots of a case in parentheses, perhaps none. -/
structure PayloadSyntax where
  /-- The opening parenthesis. -/
  opening : Tok .leftParen
  /-- The slots. -/
  slots : Option (Listed SlotSyntax)
  /-- The closing parenthesis. -/
  closing : Tok .rightParen

namespace PayloadSyntax

/-- The tokens of a payload. -/
def tokens (p : PayloadSyntax) : List Token :=
  p.opening.val :: optionTokens (Listed.tokens SlotSyntax.tokens) p.slots ++ [p.closing.val]

/-- The slots as a list. -/
def toList (p : PayloadSyntax) : List SlotSyntax :=
  match p.slots with
  | some l => l.toList
  | none => []

/-- A payload. -/
def parse (fuel : Nat) : Parser PayloadSyntax := do
  let opening ← Parser.token .leftParen
  let slots ← Parser.optional (· != .rightParen) (Parser.listed (SlotSyntax.parse fuel) fuel)
  let closing ← Parser.token .rightParen
  pure ⟨opening, slots, closing⟩

end PayloadSyntax

/-! ## Cases -/

/-- One case. -/
structure CaseSyntax where
  /-- The name. -/
  name : Word Kind.isIdentifier
  /-- The payload. -/
  payload : Option PayloadSyntax
  /-- The raw value. -/
  raw : Option Initializer

namespace CaseSyntax

/-- The tokens of a case. -/
def tokens (c : CaseSyntax) : List Token :=
  c.name.val :: optionTokens PayloadSyntax.tokens c.payload ++
    optionTokens Initializer.tokens c.raw

/-- A case. -/
def parse (fuel : Nat) : Parser CaseSyntax := do
  let name ← Parser.word Kind.isIdentifier
  let payload ← Parser.optional (· == .leftParen) (PayloadSyntax.parse fuel)
  let raw ← Initializer.parse? fuel
  pure ⟨name, payload, raw⟩

end CaseSyntax

/-- A case declaration. -/
structure CaseGroup where
  /-- Attributes and modifiers. -/
  head : Head
  /-- The keyword. -/
  keyword : Tok .caseKw
  /-- The cases. -/
  cases : Listed CaseSyntax

namespace CaseGroup

/-- The tokens of a case declaration. -/
def tokens (c : CaseGroup) : List Token :=
  c.head.tokens ++ c.keyword.val :: c.cases.tokens CaseSyntax.tokens

/-- A case declaration, from behind its head. -/
def parse (fuel : Nat) (head : Head) : Parser CaseGroup := do
  let keyword ← Parser.token .caseKw
  let cases ← Parser.listed (CaseSyntax.parse fuel) fuel
  pure ⟨head, keyword, cases⟩

end CaseGroup

end Conformance.Grammar
