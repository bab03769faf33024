import Conformance.Code.Extension

/-!
# Comparing and hashing

Three conformances that have to agree: equality, the hash for one run of a
program, and the stable hash.  All go through the same parts of a value in the
same order.  Of a structure or class these are the fields; of an enumeration the
name of the variant, then the slots of its payload.

A switch over payloads has arms for the variants with a payload only.  It is left
out if there are none, and lets the others pass if there are any.
-/

namespace Conformance

/-- The names in the code for stable hashes. -/
structure StableHashNames (τ : Type := String) where
  /-- The protocol. -/
  conformance : τ
  /-- The property with the hash. -/
  property : τ
  /-- The function that mixes a hash in. -/
  combine : τ
deriving DecidableEq, Repr

namespace Equality

/-- The name of the conformance to equality. -/
def equatable : String := "Equatable"

/-- The name of the conformance to hashing for one run. -/
def hashable : String := "Hashable"

/-! ## By fields -/

/-- Equality of structures and classes: all fields are equal. -/
def ofFields (type : String) (fields : List Field) (isPublic : Bool) : Extension where
  type
  conformance := equatable
  isPublic
  members := [.function (.equals type)
    [.step (.returnEqual (fields.map fun f => ("lhs." ++ f.name, "rhs." ++ f.name)))]]

/-- The hash of structures and classes: of all fields. -/
def hashOfFields (type : String) (fields : List Field) (isPublic : Bool) : Extension where
  type
  conformance := hashable
  isPublic
  members := [.function .hash (fields.map fun f => .step (.feed f.name))]

/-- The body of a stable hash around the steps that mix the parts in. -/
def stableBody (mixing : List Statement) : List Statement :=
  .step .startHash :: mixing ++ [.step .blank, .step .returnHash]

/-- The stable hash of structures and classes: of all fields. -/
def stableHashOfFields (names : StableHashNames) (type : String) (fields : List Field)
    (isPublic : Bool) : Extension where
  type
  conformance := names.conformance
  isPublic
  members := [.function (.stableHash names.property) (stableBody
    (fields.map fun f => .step (.mix names.combine f.name names.property)))]

/-! ## By variants -/

/-- A switch over the variants with a payload. -/
def payloadSwitch (subject : String) (variants : List Variant) (before : String)
    (body : Variant → List Step) : List Statement :=
  let carrying := variants.filter Variant.hasPayload
  if carrying.isEmpty then []
  else [.switch subject (carrying.map fun v => ⟨v.pattern before, body v⟩)
    (decide (carrying.length < variants.length))]

/-- Compares the payload of a variant with that of the right side. -/
def comparePayload (v : Variant) : List Step :=
  .requireRight (v.pattern rightPrefix) :: v.slots.map fun s =>
    .requireEqual (Variant.boundName leftPrefix s) (Variant.boundName rightPrefix s)

/-- Equality of enumerations: the same variant with equal slots. -/
def ofVariants (type : String) (variants : List Variant) (isPublic : Bool) : Extension where
  type
  conformance := equatable
  isPublic
  members := [
    .function .variantName
      [.returnName (variants.map fun v => (v.name, v.nameLiteral))],
    .function (.equals type)
      (.step .requireSameName :: payloadSwitch "lhs" variants leftPrefix comparePayload ++
        [.step .blank, .step .returnTrue])]

/-- The hash of enumerations: of the name of the variant and of all slots. -/
def hashOfVariants (type : String) (variants : List Variant) (isPublic : Bool) :
    Extension where
  type
  conformance := hashable
  isPublic
  members := [.function .hash (.step (.feed nameProperty) ::
    payloadSwitch "self" variants payloadPrefix fun v =>
      (v.boundNames payloadPrefix).map .feed)]

/-- The stable hash of enumerations: of the name of the variant and of all slots. -/
def stableHashOfVariants (names : StableHashNames) (type : String) (variants : List Variant)
    (isPublic : Bool) : Extension where
  type
  conformance := names.conformance
  isPublic
  members := [.function (.stableHash names.property) (stableBody
    (.step (.mix names.combine nameProperty names.property) ::
      payloadSwitch "self" variants payloadPrefix fun v =>
        (v.boundNames payloadPrefix).map fun b => .mix names.combine b names.property))]

/-! ## Together -/

/-- Equality of structures and classes, and the hashes that are asked for. -/
def fieldExtensions (names : StableHashNames) (type : String) (fields : List Field)
    (isPublic hashing stableHashing : Bool) : List Extension :=
  ofFields type fields isPublic ::
    ((if hashing then [hashOfFields type fields isPublic] else []) ++
      if stableHashing then [stableHashOfFields names type fields isPublic] else [])

/-- Equality of enumerations, and the hashes that are asked for. -/
def variantExtensions (names : StableHashNames) (type : String) (variants : List Variant)
    (isPublic hashing stableHashing : Bool) : List Extension :=
  ofVariants type variants isPublic ::
    ((if hashing then [hashOfVariants type variants isPublic] else []) ++
      if stableHashing then [stableHashOfVariants names type variants isPublic] else [])

end Equality

end Conformance
