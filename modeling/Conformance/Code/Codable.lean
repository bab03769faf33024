import Conformance.Code.Extension

/-!
# Coding and decoding

A structure or class is coded by its fields, each under its name, and decoded
through its memberwise initializer.

An enumeration is coded under the name of the variant at hand.  Without payload
the key has no value.  A single slot is the value of the key.  Several slots go
into an inner store below the key, each under its place, with keys of their own
for every such variant.  Decoding wants exactly one of the keys.
-/

namespace Conformance

namespace Field

/-- The field as it is decoded, under its name. -/
def decoded (f : Field) : Decoded := ⟨f.name, f.type, f.name⟩

end Field

namespace Variant

/-- The slots as they are decoded, each under its place. -/
def decodedSlots (v : Variant) : List Decoded :=
  v.slots.zipIdx.map fun (s, i) => ⟨boundName payloadPrefix s, s.type, positionalKey i⟩

/-- Writes the payload. -/
def encodeSteps (v : Variant) : List Step :=
  match v.slots with
  | [] => [.encodeNil v.name]
  | [s] => [.encode .outer (boundName payloadPrefix s) v.name]
  | slots =>
    .openInnerWriting v.keysName v.name ::
      slots.zipIdx.map fun (s, i) =>
        .encode .inner (boundName payloadPrefix s) (positionalKey i)

/-- Reads the payload. -/
def readSteps (v : Variant) : List Step :=
  match v.slots with
  | [] => [.decodeNil v.name]
  | [s] => [.decode ⟨boundName payloadPrefix s, s.type, v.name⟩]
  | _ => [.openInnerReading v.keysName v.name, .decodeInner v.decodedSlots]

/-- Reads the payload and puts the variant together. -/
def decodeSteps (v : Variant) : List Step :=
  v.readSteps ++ [.become (v.construction payloadPrefix)]

/-- The keys of the slots, if there are several. -/
def innerKeys? (v : Variant) : Option CodeMember :=
  if 2 ≤ v.arity then some (.keys v.keysName false (positionalKeys v.arity)) else none

end Variant

namespace Codable

/-- The name of the conformance. -/
def conformance : String := "Codable"

/-! ## By fields -/

/-- Writes every field. -/
def encodeFields (fields : List Field) : List Statement :=
  .step (.openWriting !fields.isEmpty) ::
    fields.map fun f => .step (.encode .outer f.name f.name)

/-- Reads every field. -/
def decodeFields (fields : List Field) : List Statement :=
  [.step (.openReading !fields.isEmpty), .step (.delegate (fields.map Field.decoded))]

/-- The conformance of a structure or class. -/
def ofFields (type : String) (fields : List Field) (isPublic isClass : Bool) : Extension where
  type
  conformance
  isPublic
  members := [
    .keys outerKeys true (fields.map Field.name),
    .function .encode (encodeFields fields),
    .function (.decode isClass) (decodeFields fields)]

/-! ## By variants -/

/-- Writes the variant at hand. -/
def encodeVariants (variants : List Variant) : List Statement :=
  let arms := variants.map fun v => ⟨v.pattern payloadPrefix, v.encodeSteps⟩
  (if variants.isEmpty then [] else [.step (.openWriting true)]) ++
    [.switch "self" arms false]

/-- Reads the variant that the one key names.  Without variants no key can be there. -/
def decodeVariants (type : String) (variants : List Variant) : List Statement :=
  .step (.openReading true) ::
    if variants.isEmpty then [.step (.reject type)]
    else [
      .requireOneKey type,
      .switch "key" (variants.map fun v => ⟨⟨v.name, []⟩, v.decodeSteps⟩) false]

/-- The conformance of an enumeration. -/
def ofVariants (type : String) (variants : List Variant) (isPublic : Bool) : Extension where
  type
  conformance
  isPublic
  members :=
    .keys outerKeys true (variants.map Variant.name) ::
      variants.filterMap Variant.innerKeys? ++ [
      .function .encode (encodeVariants variants),
      .function (.decode false) (decodeVariants type variants)]

end Codable

end Conformance
