import Conformance.Declaration.Basic
import Conformance.Grammar.Items

/-!
# From syntax to declarations

What a declaration is, read off its syntax.  Each part is a function of the
phrase it comes from, and texts are stretches of the source: a type with its
blanks collapsed, a value, a raw value and an attribute as they are.

Two parts take more than a look.  The *storage* of a property follows from the
block behind it: accessors are told from a block of code by its first word, and
accessors with code from mere names by a group in braces.  The *supertypes* of a
loose header are the atoms behind its colon, cut at the commas outside of angles,
up to the requirements.
-/

namespace Conformance.Grammar

/-! ## Properties -/

/-- The storage that a block of accessors gives. -/
def accessorStorage (body : Run) : Storage :=
  match (body.dropWords fun k => k == .mutatingKw || k == .nonmutatingKw).firstWord? with
  | some t =>
    if t.kind == .name && (t.text == "get" || t.text == "set") then
      if body.hasBraceGroup then .accessors else .accessorNames
    else .computed
  | none => .computed

namespace Binding

/-- The storage of a binding. -/
def storage : Binding → Storage
  | plain _ _ _ (some _) => .observed
  | plain _ _ _ none => .stored
  | computed _ _ accessors => accessorStorage accessors.body

/-- The name that a binding gives, if its pattern is no tuple. -/
def name? : Binding → Option String
  | plain pattern .. => pattern.name?
  | computed pattern .. => pattern.name?

/-- The variable of a binding. -/
def declared : Binding → Variable
  | plain pattern clause initializer _ =>
    ⟨pattern.name?, clause.map (·.type.text), initializer.map (·.value.text)⟩
  | computed pattern clause _ => ⟨pattern.name?, clause.map (·.type.text), none⟩

end Binding

namespace Property

/-- The storage of a property: that of its first binding with a block. -/
def storage (p : Property) : Storage :=
  ((p.bindings.toList.map Binding.storage).find? (· != .stored)).getD .stored

/-- The property as a member of a type. -/
def declaration (p : Property) : PropertyDecl where
  location := (p.head.start p.keyword).location
  keyword := p.binder.text
  bindings := p.bindings.toList.map Binding.declared
  storage := p.storage
  modifiers := p.head.modifiers.map Modifier.text ++ if p.classWord.isSome then ["class"] else []

end Property

/-! ## Cases -/

/-- The label that a word gives: an underscore gives none. -/
def labelOf {p : Kind → Bool} (w : Word p) : Option String :=
  if w.text == "_" then none else some w.text

namespace SlotSyntax

/-- The slot of a payload. -/
def element : SlotSyntax → PayloadElement
  | labelled label _ type default => ⟨labelOf label, type.text, default.map (·.value.text)⟩
  | positional type default => ⟨none, type.text, default.map (·.value.text)⟩

end SlotSyntax

/-- The case of an enumeration. -/
def CaseSyntax.element (c : CaseSyntax) : CaseElement where
  name := c.name.text
  payload := c.payload.map fun p => p.toList.map SlotSyntax.element
  raw := c.raw.map (·.value.text)

/-- The cases as a member of a type. -/
def CaseGroup.declaration (c : CaseGroup) : CaseDecl where
  location := (c.head.start c.keyword.val).location
  elements := c.cases.toList.map CaseSyntax.element
  modifiers := c.head.modifiers.map Modifier.text

/-! ## Headers -/

namespace Header

/-- The kind of type that a keyword opens. -/
def kindOf : Kind → NominalKind
  | .structKw => .structKind
  | .classKw => .classKind
  | .enumKw => .enumKind
  | .actorKw => .actorKind
  | .protocolKw => .protocolKind
  | _ => .extensionKind

/-- The kind of an atom's token, if it is one. -/
def atomKind? (a : HeaderAtom) : Option Kind := a.word?.map Token.kind

/-- The further parts of a name, each behind a dot, and the atoms behind them. -/
def nameParts : List HeaderAtom → List String × List HeaderAtom
  | .word dot :: .word part :: rest =>
    if dot.val.kind == .dot && part.val.kind == .name then
      let (parts, behind) := nameParts rest
      (part.text :: parts, behind)
    else ([], .word dot :: .word part :: rest)
  | atoms => ([], atoms)

/-- The atoms in front of the requirements, cut at the commas outside of angles.  `depth` counts
the angles that are open, and `current` the atoms since the last cut, the latest first. -/
def cutAtCommas (depth : Int) (current : List HeaderAtom) :
    List HeaderAtom → List (List HeaderAtom)
  | [] => [current.reverse]
  | a :: rest =>
    match atomKind? a with
    | some .whereKw => [current.reverse]
    | some .leftAngle => cutAtCommas (depth + 1) (a :: current) rest
    | some .rightAngle => cutAtCommas (depth - 1) (a :: current) rest
    | some .comma =>
      if depth = 0 then current.reverse :: cutAtCommas depth [] rest
      else cutAtCommas depth (a :: current) rest
    | _ => cutAtCommas depth (a :: current) rest

/-- The text of neighbouring atoms, with its blanks collapsed. -/
def atomsText (atoms : List HeaderAtom) : String :=
  Text.squash (Token.stretch (atoms.flatMap Atom.tokens))

/-- The supertypes among the atoms behind a name: those behind a colon. -/
def looseSupertypes : List HeaderAtom → List String
  | a :: rest =>
    if atomKind? a == some .colon then
      ((cutAtCommas 0 [] rest).filter (!·.isEmpty)).map atomsText
    else []
  | [] => []

/-- The name of the type. -/
def fullName : Header → String
  | structured _ _ name .. => name.text
  | loose _ keyword name atoms =>
    if keyword.val.kind == .extensionKw then
      ".".intercalate (name.text :: (nameParts atoms).1)
    else name.text

/-- The supertypes of the type. -/
def supertypes : Header → List String
  | structured _ _ _ _ inheritance _ =>
    match inheritance with
    | some i => i.types.toList.map TypeSyntax.text
    | none => []
  | loose _ keyword _ atoms =>
    looseSupertypes (if keyword.val.kind == .extensionKw then (nameParts atoms).2 else atoms)

/-- What the header says of the type. -/
def nominalHead (h : Header) : NominalHead where
  location := h.start.location
  kind := kindOf h.keyword.kind
  name := h.fullName
  modifiers := h.head.modifiers.map Modifier.text
  inherited := h.supertypes
  attributes := h.head.attributes.map Attribute.text

end Header

/-! ## Rows -/

namespace Leaf

/-- The keyword of a leaf and, as far as it has one, its name. -/
def description : Leaf → String × Option String
  | directive line => (line.text, none)
  | property p => (p.binder.text, p.bindings.first.name?)
  | cases c => ("case", some c.cases.first.name.text)
  | function _ _ _ name _ _ => ("func", some name.text)
  | constructor _ keyword .. => (keyword.text, none)
  | destructor _ keyword _ => (keyword.text, none)
  | subscript _ keyword .. => (keyword.text, none)
  | typeAlias _ keyword name _ => (keyword.text, some name.text)
  | importing _ _ _ name path =>
    ("import", some (String.join (name.text :: (pathTokens path).map Token.text)))

/-- The leaf as a declaration without state. -/
def stateless (l : Leaf) : StatelessDecl :=
  ⟨l.start.location, l.description.1, l.description.2⟩

/-- A line of compiler control. -/
def control (line : Tok .directive) : Directive :=
  ⟨line.val.start.location, Text.trim line.text⟩

/-- The leaf inside a type. -/
def member : Leaf → Member
  | directive line => .directive (control line)
  | property p => .property p.declaration
  | cases c => .cases c.declaration
  | l => .stateless l.stateless

/-- The leaf outside of any type. -/
def declaration : Leaf → Declaration
  | directive line => .directive (control line)
  | l => .stateless l.stateless

end Leaf

namespace Items

/-- The members that a row in a type declares. -/
def members : Items → List Member
  | nil => []
  | semicolon _ rest => rest.members
  | leaf l rest => l.member :: rest.members
  | nominal header _ inner _ rest => .nominal header.nominalHead inner.members :: rest.members

/-- The declarations of a row outside of any type. -/
def declarations : Items → List Declaration
  | nil => []
  | semicolon _ rest => rest.declarations
  | leaf l rest => l.declaration :: rest.declarations
  | nominal header _ inner _ rest =>
    .nominal ⟨header.nominalHead, inner.members⟩ :: rest.declarations

end Items

end Conformance.Grammar
