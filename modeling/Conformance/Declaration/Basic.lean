import Conformance.Position

/-!
# Declarations

The shape of a Swift source: its type declarations with their members, in order.
Types, values and raw values are kept as source text, and no type is resolved.
Functions, aliases, imports and the like leave only their keyword and name,
because they hold no state.

A member is a declaration inside a type.  Properties and cases are modelled there
and nowhere else: a property or a case outside of any type holds no state of a
type.
-/

namespace Conformance

/-! ## Where and what -/

/-- The line and column of a declaration's first token.  Both count from 1 in a source, and are
any numbers in a declaration that is put together by hand. -/
structure Location where
  /-- The line. -/
  line : Int
  /-- The column. -/
  column : Int
deriving DecidableEq, Repr, Inhabited

/-- The location of a position. -/
def Position.location (p : Position) : Location := ⟨p.line, p.column⟩

/-- The kinds of type declarations. -/
inductive NominalKind where
  | structKind | classKind | enumKind | actorKind | protocolKind | extensionKind
deriving DecidableEq, Repr

namespace NominalKind

/-- The keyword of a kind. -/
def word : NominalKind → String
  | structKind => "struct"
  | classKind => "class"
  | enumKind => "enum"
  | actorKind => "actor"
  | protocolKind => "protocol"
  | extensionKind => "extension"

/-- The kinds, in the order of their keywords above. -/
def all : List NominalKind :=
  [structKind, classKind, enumKind, actorKind, protocolKind, extensionKind]

/-- The kind of a keyword. -/
def ofWord? (w : String) : Option NominalKind := all.find? fun k => k.word == w

@[simp] theorem ofWord?_word (k : NominalKind) : ofWord? k.word = some k := by
  cases k <;> decide

end NominalKind

/-! ## Members -/

/-- How a property provides its value. -/
inductive Storage where
  /-- It is stored. -/
  | stored
  /-- By one block of code. -/
  | computed
  /-- By accessors with code. -/
  | accessors
  /-- By accessors of which only the names are given. -/
  | accessorNames
  /-- It is stored, and changes are observed. -/
  | observed
deriving DecidableEq, Repr

/-- One binding of a property declaration. -/
structure Variable where
  /-- The name, none for a tuple. -/
  name : Option String
  /-- The type. -/
  type : Option String
  /-- The initial value. -/
  value : Option String
deriving DecidableEq, Repr

/-- A property declaration in a type. -/
structure PropertyDecl where
  /-- Where it begins. -/
  location : Location
  /-- `let` or `var`. -/
  keyword : String
  /-- Its bindings. -/
  bindings : List Variable
  /-- How it provides its value. -/
  storage : Storage
  /-- Its modifiers. -/
  modifiers : List String
deriving DecidableEq, Repr

/-- Whether a property belongs to the type and not to its values. -/
def PropertyDecl.isTypeLevel (p : PropertyDecl) : Bool :=
  p.modifiers.contains "static" || p.modifiers.contains "class"

/-- A slot in the payload of a case. -/
structure PayloadElement where
  /-- The label, none if it is missing or an underscore. -/
  label : Option String
  /-- The type. -/
  type : String
  /-- The default value. -/
  default : Option String
deriving DecidableEq, Repr

/-- A case of an enumeration. -/
structure CaseElement where
  /-- The name. -/
  name : String
  /-- The slots, none without parentheses. -/
  payload : Option (List PayloadElement)
  /-- The raw value. -/
  raw : Option String
deriving DecidableEq, Repr

/-- A case declaration in a type. -/
structure CaseDecl where
  /-- Where it begins. -/
  location : Location
  /-- Its cases. -/
  elements : List CaseElement
  /-- Its modifiers. -/
  modifiers : List String
deriving DecidableEq, Repr

/-- Whether a case of the declaration has a raw value. -/
def CaseDecl.carriesRawValues (c : CaseDecl) : Bool := c.elements.any fun e => e.raw.isSome

/-- A declaration that holds no state of its own. -/
structure StatelessDecl where
  /-- Where it begins. -/
  location : Location
  /-- Its keyword. -/
  keyword : String
  /-- Its name, as far as it has one. -/
  name : Option String
deriving DecidableEq, Repr

/-- A line of compiler control. -/
structure Directive where
  /-- Where it begins. -/
  location : Location
  /-- The line without the blanks around it. -/
  text : String
deriving DecidableEq, Repr

/-- What a type declaration says in front of its members. -/
structure NominalHead where
  /-- Where it begins. -/
  location : Location
  /-- Its kind. -/
  kind : NominalKind
  /-- Its name, of an extension with the outer types and dots. -/
  name : String
  /-- Its modifiers. -/
  modifiers : List String
  /-- Its supertypes. -/
  inherited : List String
  /-- Its attributes. -/
  attributes : List String
deriving DecidableEq, Repr

namespace NominalHead

/-- The modifiers that say who may use a type. -/
def accessWords : List String := ["public", "open", "internal", "fileprivate", "private"]

/-- Who may use the type: its first access modifier. -/
def access? (h : NominalHead) : Option String := h.modifiers.find? accessWords.contains

/-- Whether other modules may use the type. -/
def isPublic (h : NominalHead) : Bool :=
  h.access? == some "public" || h.access? == some "open"

end NominalHead

/-- A declaration inside a type. -/
inductive Member where
  | property (p : PropertyDecl)
  | cases (c : CaseDecl)
  | nominal (head : NominalHead) (members : List Member)
  | stateless (d : StatelessDecl)
  | directive (d : Directive)

/-! ## Sources -/

/-- A type declaration. -/
structure Nominal where
  /-- What it says in front of its members. -/
  head : NominalHead
  /-- Its members. -/
  members : List Member

/-- A declaration outside of any type. -/
inductive Declaration where
  | nominal (n : Nominal)
  | stateless (d : StatelessDecl)
  | directive (d : Directive)

namespace Declaration

/-- The type declaration, if it is one. -/
def nominal? : Declaration → Option Nominal
  | nominal n => some n
  | _ => none

/-- Where a declaration begins. -/
def location : Declaration → Location
  | nominal n => n.head.location
  | stateless d => d.location
  | directive d => d.location

end Declaration

/-- The declarations of a source. -/
structure SourceFile where
  /-- The declarations in order. -/
  declarations : List Declaration
  /-- The name of the source. -/
  filename : Option String

/-- The type declarations of a source. -/
def SourceFile.nominals (s : SourceFile) : List Nominal :=
  s.declarations.filterMap Declaration.nominal?

end Conformance
