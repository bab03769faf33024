import Conformance.Model
import Conformance.Text.Capital

/-!
# Names in generated code

The names and small phrases that generated code is put together from: patterns
that bind the slots of a variant, expressions that put a variant together again,
keys for coding, and string literals.

A bound slot is named by its label behind a prefix.  The left and right side of a
comparison and the payload of a single value have prefixes of their own, and
nothing else in the generated code has a name that starts with one of them.
-/

namespace Conformance

/-- The prefix for slots of the left side of a comparison. -/
def leftPrefix : String := "l_"

/-- The prefix for slots of the right side of a comparison. -/
def rightPrefix : String := "r_"

/-- The prefix for slots of a single value. -/
def payloadPrefix : String := "p_"

/-- The words in front of a member that other modules may use. -/
def accessWord (isPublic : Bool) : String := if isPublic then "public " else ""

/-- Phrases with a comma and a space between them. -/
def commaList (items : List String) : String := ", ".intercalate items

/-! ## Patterns and constructions -/

/-- The pattern of a variant. -/
structure CasePattern where
  /-- The variant. -/
  name : String
  /-- The names that its slots are bound to. -/
  bound : List String
deriving DecidableEq, Repr

namespace CasePattern

/-- The bindings of a pattern. -/
def bindings (p : CasePattern) : String := commaList (p.bound.map ("let " ++ ·))

/-- A pattern.  There are no parentheses where nothing is bound. -/
def text (p : CasePattern) : String :=
  if p.bound.isEmpty then "." ++ p.name else "." ++ p.name ++ "(" ++ p.bindings ++ ")"

/-- A pattern as the label of a switch. -/
def label (p : CasePattern) : String := "case " ++ p.text ++ ":"

end CasePattern

/-- The expression that puts a variant together. -/
structure Construction where
  /-- The variant. -/
  name : String
  /-- The values of its slots with their labels, none without parentheses. -/
  arguments : Option (List (Option String × String))
deriving DecidableEq, Repr

namespace Construction

/-- An argument: its value, behind its label if it has one. -/
def argument : Option String × String → String
  | (some label, value) => label ++ ": " ++ value
  | (none, value) => value

/-- The arguments between the parentheses. -/
def argumentList (c : Construction) : String := commaList ((c.arguments.getD []).map argument)

/-- The expression. -/
def text (c : Construction) : String :=
  match c.arguments with
  | none => "." ++ c.name
  | some _ => "." ++ c.name ++ "(" ++ c.argumentList ++ ")"

end Construction

namespace Variant

/-- The name that a slot is bound to. -/
def boundName (before : String) (s : Slot) : String := before ++ s.label

/-- The names that the slots are bound to. -/
def boundNames (v : Variant) (before : String) : List String := v.slots.map (boundName before)

/-- The pattern that binds every slot. -/
def pattern (v : Variant) (before : String) : CasePattern := ⟨v.name, v.boundNames before⟩

/-- The variant put together from its bound slots.  A slot passes its label if that is its own. -/
def construction (v : Variant) (before : String) : Construction where
  name := v.name
  arguments := v.payload.map fun slots => slots.map fun s =>
    (if s.explicit then some s.label else none, boundName before s)

/-- The types of the slots. -/
def typeList (v : Variant) : String := commaList (v.slots.map Slot.type)

/-! ## Keys -/

/-- The name of a variant without the back quotes around it. -/
def bareName (v : Variant) : List Char :=
  let quote := fun c => c == '\x60'
  ((v.name.toList.dropWhile quote).reverse.dropWhile quote).reverse

/-- The name of the keys of a variant with several slots, as `FailureCodingKeys` for `failure`. -/
def keysName (v : Variant) : String :=
  String.ofList (Text.capitalized v.bareName) ++ "CodingKeys"

end Variant

/-- The key of a slot by its place. -/
def positionalKey (i : Int) : String := "_" ++ toString i

/-- The keys of the first slots. -/
def positionalKeys (count : Int) : List String :=
  (List.range count.toNat).map fun i : Nat => positionalKey i

/-! ## String literals -/

/-- A character inside a string literal. -/
def escapeLiteralChar (c : Char) : List Char :=
  if c = '\\' then ['\\', '\\'] else if c = '"' then ['\\', '"'] else [c]

/-- A text as a string literal. -/
def stringLiteral (cs : List Char) : String :=
  String.ofList ('"' :: cs.flatMap escapeLiteralChar ++ ['"'])

/-- The name of a variant as a string literal, without the back quotes around it. -/
def Variant.nameLiteral (v : Variant) : String := stringLiteral v.bareName

end Conformance
