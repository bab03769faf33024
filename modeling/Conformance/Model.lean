import Conformance.Declaration.Basic

/-!
# Fields and variants

What the generated code is about.  The *fields* of a type are its stored
properties, and the *variants* of an enumeration its cases, each in the order of
the source.

Reading them off never fails: a member that is not a field or a variant is passed
over.  A property counts as a field if it is stored in each value and its first
binding has a name.  A slot without a label gets one from its place, `v0`, `v1`
and so on, and is *implicit*: it is passed by place when a value is put together.
-/

namespace Conformance

/-! ## Fields -/

/-- A stored property of a type. -/
structure Field where
  /-- The name. -/
  name : String
  /-- The type. -/
  type : String
  /-- The initial value. -/
  default : Option String
deriving DecidableEq, Repr

/-- The field of a property, with a type in place of one that is not written. -/
def PropertyDecl.field? (p : PropertyDecl) (unknownType : String) : Option Field :=
  if p.storage == .stored && !p.isTypeLevel then
    p.bindings.head?.bind fun v => v.name.map fun name =>
      ⟨name, v.type.getD unknownType, v.value⟩
  else none

/-- The field of a member, if it is one. -/
def Member.field? (unknownType : String) : Member → Option Field
  | .property p => p.field? unknownType
  | _ => none

/-- The fields of a type. -/
def Nominal.fields (n : Nominal) (unknownType : String) : List Field :=
  n.members.filterMap (Member.field? unknownType)

/-! ## Variants -/

/-- A slot in the payload of a variant. -/
structure Slot where
  /-- The label, its own or one made up from its place. -/
  label : String
  /-- The type. -/
  type : String
  /-- Whether the label is its own. -/
  explicit : Bool
deriving DecidableEq, Repr

/-- A case of an enumeration. -/
structure Variant where
  /-- The name. -/
  name : String
  /-- The slots, none without parentheses. -/
  payload : Option (List Slot)
deriving DecidableEq, Repr

namespace Variant

/-- The slots, of which there are none without a payload. -/
def slots (v : Variant) : List Slot := v.payload.getD []

/-- Whether there is a slot.  Empty parentheses are no payload. -/
def hasPayload (v : Variant) : Bool := !v.slots.isEmpty

/-- How many slots there are. -/
def arity (v : Variant) : Nat := v.slots.length

end Variant

/-- The label of a slot without one. -/
def positionalLabel (i : Int) : String := "v" ++ toString i

/-- The slot at a place of a payload. -/
def PayloadElement.slot (e : PayloadElement) (i : Nat) : Slot :=
  ⟨e.label.getD (positionalLabel i), e.type, e.label.isSome⟩

/-- The variant of a case.  A case with a raw value has no payload. -/
def CaseElement.variant (e : CaseElement) : Variant :=
  match e.raw, e.payload with
  | none, some slots => ⟨e.name, some (slots.zipIdx.map fun (s, i) => s.slot i)⟩
  | _, _ => ⟨e.name, none⟩

/-- The variants of a member. -/
def Member.variants : Member → List Variant
  | .cases c => c.elements.map CaseElement.variant
  | _ => []

/-- The variants of a type. -/
def Nominal.variants (n : Nominal) : List Variant := n.members.flatMap Member.variants

/-! ## Shapes -/

/-- What code can be generated for a declaration. -/
inductive Shape where
  /-- All fields at once: a structure or class. -/
  | product
  /-- One variant at a time: an enumeration. -/
  | sum
  /-- None. -/
  | other
deriving DecidableEq, Repr

/-- The shape of a kind of type. -/
def NominalKind.shape : NominalKind → Shape
  | structKind | classKind => .product
  | enumKind => .sum
  | actorKind | protocolKind | extensionKind => .other

/-- The shape of a declaration. -/
def Declaration.shape : Declaration → Shape
  | nominal n => n.head.kind.shape
  | _ => .other

end Conformance
