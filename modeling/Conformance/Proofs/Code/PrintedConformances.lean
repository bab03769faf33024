import Conformance.Code.Codable
import Conformance.Code.Equality
import Conformance.Proofs.Code.Bindings
import Conformance.Proofs.Code.PrintedBlocks

/-!
# Printed conformances

What the conformances to coding, to equality and to the hashes put into their members can be put
there, if the names of the type and of its fields or variants are plain and their types are
lexed by themselves.  Of all of them only the conformance to coding declares outer keys, one
case for each field or variant.
-/

namespace Conformance

open Pattern Lexical Grammar

/-! ## Names that are put in -/

theorem isFiller_nameProperty : IsFiller nameProperty := IsPlainName.isFiller (by decide)

theorem isFiller_self : IsFiller "self" := IsPlainName.isFiller (by decide)

theorem IsPlainName.isPlain {name : String} (plain : IsPlainName name) : IsPlain name := by
  obtain ⟨c, cs, chars, start, parts⟩ := plain.exists_cons
  rw [IsPlain, chars]
  exact List.forall_mem_cons.mpr ⟨isNamePart_of_isNameStart start, parts⟩

theorem isPlainName_boundName {before : String} (prefix' : before ∈ slotPrefixes) {s : Slot}
    (plain : IsPlain s.label) : IsPlainName (Variant.boundName before s) := by
  obtain ⟨c, chars, start⟩ := exists_slotPrefix prefix'
  have parts : IsPlain (Variant.boundName before s) := (isPlain_boundName prefix' s).mpr plain
  exact isPlainName_of_isPlain (toList_boundName chars s) start parts

theorem isPlainName_positionalKey (i : Nat) : IsPlainName (positionalKey i) := by
  have front : IsPlain "_" := List.all_iff_forall_prop.mp (by decide)
  have chars : (positionalKey i).toList = '_' :: (toString (i : Int)).toList := by
    rw [positionalKey, String.toList_append]
    rfl
  exact isPlainName_of_isPlain chars rfl (isPlain_append_place front i)

theorem isMemberName_positionalKey (i : Nat) : IsMemberName (positionalKey i) := by
  have kind : Kind.ofWord (positionalKey i) = .name :=
    Kind.ofWord_of_underscore (by simp [positionalKey, String.toList_append])
  exact ⟨isPlainName_positionalKey i, by rw [kind]; rfl⟩

theorem isNameStart_toUpper {c : Char} (start : isNameStart c = true) :
    isNameStart c.toUpper = true := by
  have all : ∀ n < 128, isNameStart (Char.ofNat n) = true →
      isNameStart (Char.ofNat n).toUpper = true := by decide
  have low := toNat_lt_of_isNamePart (isNamePart_of_isNameStart start)
  have here := all c.toNat low
  rw [Char.ofNat_toNat] at here
  exact here start

/-- The name of the keys of a variant can name a type. -/
theorem Variant.isTypeName_keysName {v : Variant} (plain : IsPlainName v.name) :
    IsTypeName v.keysName := by
  obtain ⟨c, cs, chars, start, parts⟩ := plain.exists_cons
  have capital : Text.capitalized v.bareName = c.toUpper :: cs := by
    rw [bareName_of_plain plain, chars, Text.capitalized,
      Text.capital_of_lt (toNat_lt_of_isNamePart (isNamePart_of_isNameStart start))]
    rfl
  have whole : v.keysName.toList = c.toUpper :: (cs ++ "CodingKeys".toList) := by
    rw [keysName, capital, String.toList_append, String.toList_ofList, List.cons_append]
  have upper := isNameStart_toUpper start
  constructor
  · refine isPlainName_of_isPlain whole upper fun d mem => ?_
    rw [whole] at mem
    rcases List.mem_cons.mp mem with rfl | mem
    · exact isNamePart_of_isNameStart upper
    rcases List.mem_append.mp mem with inside | behind
    · exact parts d inside
    · have all : ∀ e ∈ "CodingKeys".toList, isNamePart e = true :=
        List.all_iff_forall_prop.mp (by decide)
      exact all d behind
  · have none : ∀ p ∈ Kind.reserved, ¬"CodingKeys".toList <:+ p.1.toList := by decide
    rcases Kind.ofWord_cases v.keysName with is | reserved
    · exact is
    · exact absurd ⟨c.toUpper :: cs, by rw [whole]; rfl⟩ (none _ reserved)

/-- What is put in for a variant. -/
structure Variant.Prints (v : Variant) : Prop where
  /-- The name can be written as it is. -/
  name : IsMemberName v.name
  /-- The labels of slots are plain, and their types are lexed by themselves. -/
  slots : ∀ s ∈ v.slots, IsPlainName s.label ∧ IsFiller s.type

namespace Variant.Prints

variable {v : Variant} {before : String}

theorem isFiller_boundName (h : v.Prints) (prefix' : before ∈ slotPrefixes) {s : Slot}
    (mem : s ∈ v.slots) : IsFiller (boundName before s) :=
  (isPlainName_boundName prefix' (h.slots s mem).1.isPlain).isFiller

theorem isFiller_boundNames (h : v.Prints) (prefix' : before ∈ slotPrefixes) :
    ∀ b ∈ v.boundNames before, IsFiller b :=
  List.forall_mem_map.mpr fun _ mem => h.isFiller_boundName prefix' mem

theorem pattern (h : v.Prints) (prefix' : before ∈ slotPrefixes) : (v.pattern before).Prints :=
  ⟨h.name.plain.isFiller, h.isFiller_boundNames prefix'⟩

theorem construction (h : v.Prints) (prefix' : before ∈ slotPrefixes) :
    (v.construction before).Prints := by
  refine ⟨h.name.plain.isFiller, fun a mem => ?_⟩
  cases payload : v.payload with
  | none => simp [Variant.construction, payload] at mem
  | some slots =>
    simp only [Variant.construction, payload, Option.map_some, Option.getD_some,
      List.mem_map] at mem
    obtain ⟨s, inside, rfl⟩ := mem
    have slot : s ∈ v.slots := by simpa [Variant.slots, payload] using inside
    refine ⟨fun l label => ?_, h.isFiller_boundName prefix' slot⟩
    dsimp only at label
    split at label
    · rw [← Option.some.inj label]
      exact (h.slots s slot).1.isFiller
    · cases label

theorem nameLiteral (h : v.Prints) : IsFiller v.nameLiteral := by
  obtain ⟨c, cs, chars, start, parts⟩ := h.name.plain.exists_cons
  have part : ∀ d ∈ v.name.toList, isNamePart d = true := h.name.plain.isPlain
  have others : ∀ d ∈ ['"', '\\', '\n', '*'], isNamePart d = false :=
    List.all_iff_forall_prop.mp (by decide)
  have text : IsLiteralText v.name.toList := by
    refine ⟨by simp [chars], fun d mem => ?_⟩
    refine ⟨?_, ?_, ?_, ?_⟩ <;> rintro rfl <;> exact absurd (part _ mem) (by decide)
  have escaped : v.name.toList.flatMap escapeLiteralChar = v.name.toList := by
    have each : ∀ d ∈ v.name.toList, escapeLiteralChar d = [d] := by
      intro d mem
      obtain ⟨quote, escape, -, -⟩ := text.chars d mem
      simp [escapeLiteralChar, quote, escape]
    rw [List.flatMap_congr each]
    simp
  rw [Variant.nameLiteral, stringLiteral, bareName_of_plain h.name.plain, escaped]
  exact text.isFiller

/-- The slots as they are decoded. -/
theorem decodedSlots (h : v.Prints) : ∀ d ∈ v.decodedSlots, d.Prints := by
  refine List.forall_mem_map.mpr fun (s, i) place => ?_
  have mem := List.fst_mem_of_mem_zipIdx place
  exact ⟨h.isFiller_boundName (by decide) mem, (h.slots s mem).2,
    (isMemberName_positionalKey i).plain.isFiller⟩

theorem encodeSteps (h : v.Prints) : ∀ s ∈ v.encodeSteps, s.Prints := by
  have prefix' : payloadPrefix ∈ slotPrefixes := by decide
  have name := h.name.plain.isFiller
  have bound := fun s mem => h.isFiller_boundName prefix' (s := s) mem
  unfold Variant.encodeSteps
  cases slots : v.slots with
  | nil => exact List.forall_mem_singleton.mpr name
  | cons s rest =>
    rw [slots] at bound
    cases rest with
    | nil => exact List.forall_mem_singleton.mpr ⟨bound s List.mem_cons_self, name⟩
    | cons t rest =>
      refine List.forall_mem_cons.mpr
        ⟨⟨(Variant.isTypeName_keysName h.name.plain).plain.isFiller, name⟩, ?_⟩
      refine List.forall_mem_map.mpr fun (u, i) place => ?_
      exact ⟨bound u (List.fst_mem_of_mem_zipIdx place),
        (isMemberName_positionalKey i).plain.isFiller⟩

theorem decodeSteps (h : v.Prints) : ∀ s ∈ v.decodeSteps, s.Prints := by
  have prefix' : payloadPrefix ∈ slotPrefixes := by decide
  have name := h.name.plain.isFiller
  refine List.forall_mem_append.mpr
    ⟨?_, List.forall_mem_singleton.mpr (h.construction prefix')⟩
  unfold Variant.readSteps
  split
  next => exact List.forall_mem_singleton.mpr name
  next s slots =>
    have mem : s ∈ v.slots := by rw [slots]; exact List.mem_cons_self
    exact List.forall_mem_singleton.mpr ⟨h.isFiller_boundName prefix' mem, (h.slots s mem).2, name⟩
  next =>
    exact List.forall_mem_cons.mpr
      ⟨⟨(Variant.isTypeName_keysName h.name.plain).plain.isFiller, name⟩,
        List.forall_mem_singleton.mpr h.decodedSlots⟩

theorem innerKeys (h : v.Prints) : ∀ m ∈ v.innerKeys?, m.Prints := by
  intro m mem
  unfold Variant.innerKeys? at mem
  split at mem
  · cases mem
    exact ⟨Variant.isTypeName_keysName h.name.plain,
      List.forall_mem_map.mpr fun i _ => isMemberName_positionalKey i⟩
  · cases mem

end Variant.Prints

/-! ## Coding -/

section
variable {type : String} {isPublic : Bool}

namespace Codable

theorem prints_ofFields (named : IsTypeName type) {fields : List Field}
    (each : ∀ f ∈ fields, f.Prints) {isClass : Bool} :
    (ofFields type fields isPublic isClass).Prints := by
  have name : ∀ f ∈ fields, IsFiller f.name := fun f mem => (each f mem).name.plain.isFiller
  have conformance : IsTypeName Codable.conformance := by decide
  refine ⟨named, conformance, List.forall_mem_cons.mpr ⟨⟨?_, ?_⟩, List.forall_mem_cons.mpr
    ⟨⟨trivial, ?_⟩, List.forall_mem_singleton.mpr ⟨trivial, ?_⟩⟩⟩⟩
  · decide
  · exact List.forall_mem_map.mpr fun f mem => (each f mem).name
  · refine List.forall_mem_cons.mpr ⟨trivial, List.forall_mem_map.mpr fun f mem => ?_⟩
    exact ⟨name f mem, name f mem⟩
  · refine List.forall_mem_cons.mpr ⟨trivial, List.forall_mem_singleton.mpr ?_⟩
    exact List.forall_mem_map.mpr fun f mem => ⟨name f mem, (each f mem).type, name f mem⟩

theorem prints_ofVariants (named : IsTypeName type) {variants : List Variant}
    (each : ∀ v ∈ variants, v.Prints) : (ofVariants type variants isPublic).Prints := by
  have conformance : IsTypeName Codable.conformance := by decide
  refine ⟨named, conformance, List.forall_mem_cons.mpr ⟨⟨?_, ?_⟩, List.forall_mem_append.mpr
    ⟨?_, List.forall_mem_cons.mpr ⟨⟨trivial, ?_⟩, List.forall_mem_singleton.mpr ⟨trivial, ?_⟩⟩⟩⟩⟩
  · decide
  · exact List.forall_mem_map.mpr fun v mem => (each v mem).name
  · intro m mem
    obtain ⟨v, variant, keys⟩ := List.mem_filterMap.mp mem
    exact (each v variant).innerKeys m keys
  · refine List.forall_mem_append.mpr ⟨?_, List.forall_mem_singleton.mpr ⟨?_, ?_⟩⟩
    · split
      · exact List.forall_mem_nil _
      · exact List.forall_mem_singleton.mpr trivial
    · exact isFiller_self
    · exact List.forall_mem_map.mpr fun v mem =>
        ⟨(each v mem).pattern (by decide), (each v mem).encodeSteps⟩
  · refine List.forall_mem_cons.mpr ⟨trivial, ?_⟩
    split
    · exact List.forall_mem_singleton.mpr named.plain
    · refine List.forall_mem_cons.mpr ⟨named.plain, List.forall_mem_singleton.mpr ⟨?_, ?_⟩⟩
      · exact IsPlainName.isFiller (by decide)
      · refine List.forall_mem_map.mpr fun v mem => ⟨⟨(each v mem).name.plain.isFiller, ?_⟩,
          (each v mem).decodeSteps⟩
        exact List.forall_mem_nil _

/-- The conformance to coding declares the outer keys, one case for each field. -/
theorem outerCases_ofFields (fields : List Field) {isClass : Bool} :
    (ofFields type fields isPublic isClass).members.flatMap CodeMember.outerCases =
      [(fields.map Field.name).map plainCase] := by
  simp [ofFields, CodeMember.outerCases]

/-- Or one for each variant. -/
theorem outerCases_ofVariants {variants : List Variant} (each : ∀ v ∈ variants, v.Prints) :
    (ofVariants type variants isPublic).members.flatMap CodeMember.outerCases =
      [(variants.map Variant.name).map plainCase] := by
  have inner : (variants.filterMap Variant.innerKeys?).flatMap CodeMember.outerCases = [] := by
    refine List.flatMap_eq_nil_iff.mpr fun m mem => ?_
    obtain ⟨v, variant, keys⟩ := List.mem_filterMap.mp mem
    unfold Variant.innerKeys? at keys
    split at keys
    · cases keys
      simp [CodeMember.outerCases, Variant.keysName_ne_outerKeys (each v variant).name.plain]
    · cases keys
  simp [ofVariants, CodeMember.outerCases, inner]

end Codable

/-! ## Equality and the hashes -/

/-- What is put in for the names in the code for stable hashes. -/
structure StableHashNames.Prints (names : StableHashNames) : Prop where
  /-- The protocol is a type. -/
  conformance : IsTypeName names.conformance
  /-- The property can be written as it is. -/
  property : IsMemberName names.property
  /-- The function can begin a body. -/
  combine : IsPlainName names.combine ∧ names.combine ≠ "willSet" ∧ names.combine ≠ "didSet"

namespace Equality

variable {fields : List Field} {variants : List Variant} {names : StableHashNames}

theorem isFiller_member {object name : String} (plain : IsPlainName object)
    (plain' : IsPlainName name) : IsFiller (object ++ "." ++ name) := by
  have line : object ++ "." ++ name = fill "" [object, name] [".", ""] := by
    simp [fill, String.append_assoc]
  rw [line]
  exact isFiller_of_frame rfl rfl (by simp [plain.isFiller, plain'.isFiller])

theorem prints_ofFields (named : IsTypeName type) (each : ∀ f ∈ fields, f.Prints) :
    (ofFields type fields isPublic).Prints := by
  have conformance : IsTypeName equatable := by decide
  refine ⟨named, conformance, List.forall_mem_singleton.mpr ⟨named,
    List.forall_mem_singleton.mpr (List.forall_mem_map.mpr fun f mem => ?_)⟩⟩
  have plain := (each f mem).name.plain
  have left : IsPlainName "lhs" := by decide
  have right : IsPlainName "rhs" := by decide
  exact ⟨isFiller_member left plain, isFiller_member right plain⟩

theorem prints_hashOfFields (named : IsTypeName type) (each : ∀ f ∈ fields, f.Prints) :
    (hashOfFields type fields isPublic).Prints := by
  have conformance : IsTypeName hashable := by decide
  exact ⟨named, conformance, List.forall_mem_singleton.mpr ⟨trivial,
    List.forall_mem_map.mpr fun f mem => (each f mem).name.plain.isFiller⟩⟩

theorem prints_stableBody {mixing : List Statement} (each : ∀ s ∈ mixing, s.Prints) :
    ∀ s ∈ stableBody mixing, s.Prints := by
  refine List.forall_mem_append.mpr ⟨List.forall_mem_cons.mpr ⟨trivial, each⟩, ?_⟩
  exact List.forall_mem_cons.mpr ⟨trivial, List.forall_mem_singleton.mpr trivial⟩

theorem prints_stableHashOfFields (given : names.Prints) (named : IsTypeName type)
    (each : ∀ f ∈ fields, f.Prints) :
    (stableHashOfFields names type fields isPublic).Prints := by
  refine ⟨named, given.conformance, List.forall_mem_singleton.mpr ⟨given.property,
    prints_stableBody (List.forall_mem_map.mpr fun f mem => ⟨given.combine, ?_, ?_⟩)⟩⟩
  · exact (each f mem).name.plain.isFiller
  · exact given.property.plain.isFiller

/-- A switch over the variants with a payload. -/
theorem prints_payloadSwitch {subject before : String} {body : Variant → List Step}
    (is : IsFiller subject) (prefix' : before ∈ slotPrefixes) (each : ∀ v ∈ variants, v.Prints)
    (bodies : ∀ v ∈ variants, ∀ s ∈ body v, s.Prints) :
    ∀ s ∈ payloadSwitch subject variants before body, s.Prints := by
  unfold payloadSwitch
  dsimp only
  split
  · exact List.forall_mem_nil _
  · refine List.forall_mem_singleton.mpr ⟨is, List.forall_mem_map.mpr fun v mem => ?_⟩
    have variant := List.mem_of_mem_filter mem
    exact ⟨(each v variant).pattern prefix', bodies v variant⟩

theorem prints_ofVariants (named : IsTypeName type) (each : ∀ v ∈ variants, v.Prints) :
    (ofVariants type variants isPublic).Prints := by
  have conformance : IsTypeName equatable := by decide
  have left : IsPlainName "lhs" := by decide
  refine ⟨named, conformance, List.forall_mem_cons.mpr ⟨⟨trivial, ?_⟩,
    List.forall_mem_singleton.mpr ⟨named, List.forall_mem_append.mpr
      ⟨List.forall_mem_cons.mpr ⟨trivial, ?_⟩, ?_⟩⟩⟩⟩
  · exact List.forall_mem_singleton.mpr (List.forall_mem_map.mpr fun v mem =>
      ⟨(each v mem).name.plain.isFiller, (each v mem).nameLiteral⟩)
  · refine prints_payloadSwitch left.isFiller (by decide) each fun v mem => ?_
    refine List.forall_mem_cons.mpr ⟨(each v mem).pattern (by decide), ?_⟩
    exact List.forall_mem_map.mpr fun s slot => ⟨(each v mem).isFiller_boundName (by decide) slot,
      (each v mem).isFiller_boundName (by decide) slot⟩
  · exact List.forall_mem_cons.mpr ⟨trivial, List.forall_mem_singleton.mpr trivial⟩

theorem prints_hashOfVariants (named : IsTypeName type) (each : ∀ v ∈ variants, v.Prints) :
    (hashOfVariants type variants isPublic).Prints := by
  have conformance : IsTypeName hashable := by decide
  refine ⟨named, conformance, List.forall_mem_singleton.mpr ⟨trivial,
    List.forall_mem_cons.mpr ⟨isFiller_nameProperty, ?_⟩⟩⟩
  refine prints_payloadSwitch isFiller_self (by decide) each fun v mem => ?_
  exact List.forall_mem_map.mpr ((each v mem).isFiller_boundNames (by decide))

theorem prints_stableHashOfVariants (given : names.Prints) (named : IsTypeName type)
    (each : ∀ v ∈ variants, v.Prints) :
    (stableHashOfVariants names type variants isPublic).Prints := by
  have mixed {value : String} (is : IsFiller value) :
      (Step.mix names.combine value names.property).Prints :=
    ⟨given.combine, is, given.property.plain.isFiller⟩
  refine ⟨named, given.conformance, List.forall_mem_singleton.mpr ⟨given.property,
    prints_stableBody (List.forall_mem_cons.mpr ⟨mixed isFiller_nameProperty, ?_⟩)⟩⟩
  refine prints_payloadSwitch isFiller_self (by decide) each fun v mem => ?_
  exact List.forall_mem_map.mpr fun b bound =>
    mixed ((each v mem).isFiller_boundNames (by decide) b bound)

end Equality

end

end Conformance
