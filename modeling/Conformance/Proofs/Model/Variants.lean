import Conformance.Proofs.Model.Fields

/-!
# The variants of a derivation

What variants a row of members has can be read off its derivation: one for each case, in
order, whether cases share a declaration or not.  The variants of the members that are
built from the row are the same (`Items.variants_members`).

A slot is counted within its payload, so the label that is made up for it depends on
nothing outside of its case.
-/

namespace Conformance.Grammar

namespace Forest

/-! ## Reading variants off a derivation -/

/-- The slot of a payload at a place.  Its label is its own if one is written that is no
underscore, and else made up from the place. -/
def slotAt (source : List Char) (elem : Forest) (i : Nat) : Slot :=
  let own := elem.identifier?.filter (· != "_")
  { label := own.getD (positionalLabel i)
    type := ((elem.parts .type).head?.map fun t =>
      Text.squash (Token.slice source t.tokens)).getD ""
    explicit := own.isSome }

/-- The slots of a payload. -/
def slots (source : List Char) (payload : Forest) : List Slot :=
  (payload.parts .payloadElem).zipIdx.map fun (elem, i) => elem.slotAt source i

/-- The variant of a case.  Its slots count if no raw value is written behind them. -/
def variant (source : List Char) (c : Forest) : Variant where
  name := c.identifier?.getD ""
  payload :=
    if (c.parts .rawValue).isEmpty then (c.parts .casePayload).head?.map (slots source) else none

/-- The variants of what stands below an item: those of a case declaration. -/
def itemVariants (source : List Char) (item : Forest) : List Variant :=
  ((item.parts .decl).flatMap (parts .caseDecl)).flatMap fun decl =>
    (decl.parts .enumCase).map (variant source)

/-- The variants of a member. -/
def variants (source : List Char) (member : Forest) : List Variant :=
  (member.parts .item).flatMap (itemVariants source)

/-- The variants of members in a row are those of the members. -/
theorem variants_concat (source : List Char) (members : List Forest) :
    (concat members).variants source = members.flatMap (variants source) := by
  rw [variants, parts_concat, List.flatMap_assoc]
  rfl

end Forest

/-! ## Payloads -/

section
variable {source : List Char} {q : Nat}

theorem SlotSyntax.slotAt_forest {s : SlotSyntax} (tiles : Token.Tiles source q s.forest.tokens)
    (i : Nat) : s.forest.slotAt source i = s.element.slot i := by
  have type : ((s.forest.parts .type).head?.map fun t =>
      Text.squash (Token.slice source t.tokens)) = s.forest.typeText? := by
    refine Option.map_congr fun t found => ?_
    obtain ⟨q', tiles⟩ := tiles.within (Forest.parts_within (List.mem_of_head? found))
    rw [Token.stretch_eq_slice tiles]
  rw [Forest.slotAt, type, ← s.slot_forest]
  rfl

theorem PayloadSyntax.slotsOf_forest {p : PayloadSyntax}
    (tiles : Token.Tiles source q p.forest.tokens) :
    p.forest.slots source =
      (p.toList.map SlotSyntax.element).zipIdx.map fun (s, i) => s.slot i := by
  rw [Forest.slots, p.parts_forest, List.zipIdx_map, List.zipIdx_map, List.map_map, List.map_map]
  refine List.map_congr_left fun (s, i) mem => ?_
  have part : s.forest ∈ p.forest.parts .payloadElem := by
    rw [p.parts_forest]
    exact List.mem_map_of_mem (List.fst_mem_of_mem_zipIdx mem)
  obtain ⟨q', tiles⟩ := tiles.within (Forest.parts_within part)
  exact SlotSyntax.slotAt_forest tiles i

/-! ## Cases -/

theorem CaseSyntax.variant_forest {c : CaseSyntax}
    (tiles : Token.Tiles source q c.forest.tokens) :
    c.forest.variant source = c.element.variant := by
  have name : c.forest.identifier?.getD "" = c.name.text :=
    congrArg CaseElement.name c.caseElement_forest
  have raw : (c.forest.parts .rawValue).isEmpty = c.raw.isNone := by
    cases h : c.payload <;> cases h' : c.raw <;> simp [forest, h, h']
  have payload : (c.forest.parts .casePayload).head? = c.payload.map PayloadSyntax.forest := by
    cases h : c.payload <;> cases h' : c.raw <;> simp [forest, h, h']
  have slots : (c.forest.parts .casePayload).head?.map (Forest.slots source) =
      c.payload.map fun p =>
        (p.toList.map SlotSyntax.element).zipIdx.map fun (s, i) => s.slot i := by
    rw [payload, Option.map_map]
    refine Option.map_congr fun p found => ?_
    rw [found] at payload
    obtain ⟨q', tiles⟩ := tiles.within (Forest.parts_within (List.mem_of_head? payload))
    exact PayloadSyntax.slotsOf_forest tiles
  rw [Forest.variant, name, raw, slots]
  cases h : c.raw <;> cases h' : c.payload <;> simp [CaseElement.variant, element, h, h']

theorem CaseGroup.variants_forest {c : CaseGroup}
    (tiles : Token.Tiles source q c.forest.tokens) :
    (c.forest.parts .enumCase).map (Forest.variant source) =
      c.declaration.elements.map CaseElement.variant := by
  rw [c.parts_forest, CaseGroup.declaration, List.map_map, List.map_map]
  refine List.map_congr_left fun s mem => ?_
  have part : s.forest ∈ c.forest.parts .enumCase := by
    rw [c.parts_forest]
    exact List.mem_map_of_mem mem
  obtain ⟨q', tiles⟩ := tiles.within (Forest.parts_within part)
  exact CaseSyntax.variant_forest tiles

/-! ## Members -/

theorem Leaf.itemVariants_forest {l : Leaf} (tiles : Token.Tiles source q l.tokens) :
    (Forest.under .decl (.under l.rule l.forest)).itemVariants source = l.member.variants := by
  cases l with
  | cases c =>
    rw [← (Leaf.cases c).tokens_forest] at tiles
    have variants := CaseGroup.variants_forest tiles
    simpa [Forest.itemVariants, rule, forest, member, Member.variants] using variants
  | _ => rfl

namespace Items

/-- The variants of the members that a row declares are those of its derivation, one by one. -/
theorem variants_members {i : Items} (tiles : Token.Tiles source q i.tokens) :
    i.members.flatMap Member.variants = i.forest.variants source := by
  induction i generalizing q with
  | nil => rfl
  | semicolon mark rest ih => exact ih tiles.2
  | leaf l rest ih =>
    have here := Leaf.itemVariants_forest tiles.left
    rw [members, List.flatMap_cons, ih tiles.right, ← here]
    rfl
  | nominal header opening inner closing rest _ ih =>
    have ne : ∀ k, nominalRule k ≠ .caseDecl := by decide
    have tiles' : Token.Tiles source q ((header.tokens ++ opening.val :: inner.tokens ++
        [closing.val]) ++ rest.tokens) := by
      simpa [tokens] using tiles
    have here : (Forest.under .decl (.under (nominalRule header.keyword.kind)
        (header.forest (.under .memberBlock (.ofToken opening.val ++
          (inner.forest ++ .ofToken closing.val)))))).itemVariants source = [] := by
      simp [Forest.itemVariants, ne]
    simp only [members, forest, Forest.variants, Forest.parts, if_true, List.flatMap_cons, here,
      Member.variants, List.nil_append]
    exact ih tiles'.right

end Items

end

end Conformance.Grammar
