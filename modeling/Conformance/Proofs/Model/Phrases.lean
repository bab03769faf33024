import Conformance.Model
import Conformance.Proofs.Code.PrintedConformances
import Conformance.Proofs.Model.Order
import Conformance.Proofs.Model.Types

/-!
# The phrases of fields and variants

The fields and variants of a type are read off phrases of the source: a name, a type, a value,
a label.  Where the names and labels are plain and the types have neither comments nor marks in
them that close something, generated code can put them in (`FieldPhrase.prints`,
`CaseSyntax.prints`).
-/

namespace Conformance

open Pattern Grammar

/-- Whether a name is written without back quotes and dollar signs. -/
def StartsBare (name : String) : Prop :=
  name.toList.head? ≠ some '\x60' ∧ name.toList.head? ≠ some '$'

instance (name : String) : Decidable (StartsBare name) := inferInstanceAs (Decidable (_ ∧ _))

/-- No comment stands between the tokens of a type, and no name among them has a mark in it that
could close what is opened far in front. -/
structure IsClear (ts : List Token) : Prop where
  /-- Between the tokens stand blanks only. -/
  blank : ∀ t ∈ ts.tail, ∀ c ∈ t.layout.toList, isSpace c = true
  /-- The tokens are quiet. -/
  quiet : ∀ t ∈ ts, Quiet t.text.toList

instance (ts : List Token) : Decidable (IsClear ts) :=
  decidable_of_iff ((∀ t ∈ ts.tail, t.layout.toList.all isSpace = true) ∧
      ∀ t ∈ ts, Quiet t.text.toList)
    ⟨fun ⟨blank, quiet⟩ => ⟨fun t mem => List.all_eq_true.mp (blank t mem), quiet⟩,
      fun ⟨blank, quiet⟩ => ⟨fun t mem => List.all_eq_true.mpr (blank t mem), quiet⟩⟩

section
variable {source : List Char}

/-- An identifier of a source that starts bare is a plain name. -/
theorem plain_of_mem {t : Token} (clean : (lex source).stray? = none)
    (mem : t ∈ (lex source).delivered) (identifier : t.kind.isIdentifier = true)
    (bare : StartsBare t.text) : IsPlainName t.text ∧ Kind.ofWord t.text = t.kind := by
  have part : [t] <:+: (lex source).delivered := (List.singleton_infix_iff ..).mpr mem
  obtain ⟨a, u, stand, -⟩ := exists_stand clean part
  have kinds : ∀ k : Kind, k.isIdentifier = true → k.unmarked = k := by decide
  have kind : t.lexeme.kind = t.kind := kinds _ identifier
  cases stand with
  | @cons _ _ b _ layout turn others =>
    obtain ⟨matches', word⟩ := turn.word_of_isIdentifier (by rw [kind]; exact identifier)
    rw [kind, String.ofList_toList] at word
    refine ⟨?_, word.symm⟩
    have same : (t.text.toList ++ (b ++ u)).head? = t.text.toList.head? := by
      obtain ⟨c, cs, chars⟩ := List.exists_cons_of_ne_nil turn.ne_nil
      rw [chars]
      rfl
    have plain := plainName_of_name matches' (same ▸ bare.1) (same ▸ bare.2)
    have alone : plainName (t.text.toList ++ []) = some t.text.toList.length :=
      plainName_relocate plain (Nat.le_refl _) (by simp [Halts])
    rwa [List.append_nil, String.length_toList] at alone

/-- A type without comments and closing marks is a filler. -/
theorem isFiller_type {t : TypeSyntax} (clean : (lex source).stray? = none)
    (part : t.tokens <:+: (lex source).delivered) (clear : IsClear t.tokens) :
    IsFiller t.text := by
  have closed : ∀ k : Kind, Grammar.isTypeWord k = true → k.isClosed = true := by decide
  have piece := piece_squash clean part (TypeSyntax.isCut t).ends
    (fun u mem => closed _ (t.isTypeWord u mem)) clear.blank clear.quiet
  refine ⟨_, piece, ?_⟩
  have kinds : (t.tokens.map Token.squashed).map Lexeme.kind =
      (t.tokens.map Token.kind).map Kind.unmarked := by
    rw [List.map_map, List.map_map]
    rfl
  rw [IsLevel, kinds, nesting_unmarked]
  exact t.isLevel

end

/-! ## Fields -/

namespace Grammar

/-- What is read as a field: a name with its type and value. -/
structure FieldPhrase where
  /-- The name. -/
  name : Word Kind.isIdentifier
  /-- The type. -/
  clause : Option TypeClause
  /-- The value. -/
  value : Option Initializer

namespace FieldPhrase

/-- The field that is read. -/
def field (p : FieldPhrase) (unknownType : String) : Field where
  name := p.name.text
  type := (p.clause.map (·.type.text)).getD unknownType
  default := p.value.map (·.value.text)

/-- The tokens of the value. -/
def values (p : FieldPhrase) : List (List Token) := valueTokens p.value

end FieldPhrase

/-- The phrase of a binding, if its pattern is a name. -/
def Binding.fieldPhrase? : Binding → Option FieldPhrase
  | plain (.name word) clause initializer _ => some ⟨word, clause, initializer⟩
  | computed (.name word) clause _ => some ⟨word, clause, none⟩
  | _ => none

/-- The phrase of a leaf, if it is read as a field. -/
def Leaf.fieldPhrase? : Leaf → Option FieldPhrase
  | property p =>
    if p.declaration.storage == .stored && !p.declaration.isTypeLevel then
      p.bindings.first.fieldPhrase?
    else none
  | _ => none

theorem Leaf.field?_member (l : Leaf) (unknownType : String) :
    l.member.field? unknownType = l.fieldPhrase?.map (·.field unknownType) := by
  cases l with
  | property p =>
    have first : p.declaration.bindings.head? = some p.bindings.first.declared := rfl
    have binding : (p.bindings.first.declared.name.map fun name =>
        ⟨name, p.bindings.first.declared.type.getD unknownType, p.bindings.first.declared.value⟩) =
          p.bindings.first.fieldPhrase?.map (·.field unknownType) := by
      cases p.bindings.first with
      | plain pattern => cases pattern <;> rfl
      | computed pattern => cases pattern <;> rfl
    simp only [member, Member.field?, PropertyDecl.field?, first, Option.bind_some, binding,
      fieldPhrase?]
    split <;> rfl
  | _ => rfl

/-- The phrases of the fields of a row. -/
def Items.fieldPhrases (i : Items) : List FieldPhrase := i.leaves.filterMap Leaf.fieldPhrase?

theorem Items.filterMap_field? (i : Items) (unknownType : String) :
    i.members.filterMap (Member.field? unknownType) =
      i.fieldPhrases.map (·.field unknownType) := by
  rw [List.filterMap_eq_flatMap_toList, i.flatMap_members _ fun _ _ => rfl, fieldPhrases,
    List.map_filterMap, List.filterMap_eq_flatMap_toList]
  simp only [Leaf.field?_member]

theorem Binding.parts_fieldPhrase {b : Binding} {p : FieldPhrase} (h : b.fieldPhrase? = some p) :
    p.name.val ∈ b.tokens ∧ (∀ c ∈ p.clause, c.type.tokens ∈ b.typeTokens) ∧
      InOrder p.values b.tokens := by
  have values {o : Option Initializer} (is : ∀ ts ∈ valueTokens o, ts <:+: b.tokens) :
      InOrder (valueTokens o) b.tokens := by
    cases o with
    | none => exact .nil
    | some i => exact .single (is _ List.mem_cons_self)
  have type {clause : Option TypeClause} :
      ∀ c ∈ clause, c.type.tokens ∈ (clause.map (·.type.tokens)).toList := by
    rintro c rfl
    exact List.mem_cons_self
  have initial := fun ts mem => (b.takes_initial ts mem).1
  cases b with
  | plain pattern clause initializer observers =>
    cases pattern with
    | name word =>
      cases h
      exact ⟨List.mem_cons_self, type, values initial⟩
    | tuple => cases h
  | computed pattern clause accessors =>
    cases pattern with
    | name word =>
      cases h
      exact ⟨List.mem_cons_self, type, .nil⟩
    | tuple => cases h

/-- What a phrase of a field holds are parts of its leaf. -/
theorem Leaf.parts_fieldPhrase {l : Leaf} {p : FieldPhrase} (h : l.fieldPhrase? = some p) :
    p.name.val ∈ l.tokens ∧
      (∀ c ∈ p.clause, c.type.tokens ∈ Items.gatherLeaf annotationPhrases l) ∧
      InOrder p.values l.tokens := by
  cases l with
  | property d =>
    have whole : d.bindings.first.tokens <:+: d.tokens :=
      (infix_listed (l := d.bindings) List.mem_cons_self).trans d.infix_bindings
    obtain ⟨-, phrase⟩ := Option.ite_none_right_eq_some.mp h
    obtain ⟨name, types, values⟩ := Binding.parts_fieldPhrase phrase
    refine ⟨whole.subset name, fun c is => ?_, values.of_infix whole⟩
    exact List.mem_flatMap.mpr ⟨d.bindings.first, List.mem_cons_self, types c is⟩
  | _ => cases h

theorem Items.inOrder_values (i : Items) :
    InOrder (i.fieldPhrases.flatMap FieldPhrase.values) i.tokens := by
  have each (l : Leaf) :
      InOrder (l.fieldPhrase?.toList.flatMap FieldPhrase.values) l.tokens := by
    cases phrase : l.fieldPhrase? with
    | none => exact .nil
    | some p => simpa using (Leaf.parts_fieldPhrase phrase).2.2
  have whole := i.inOrder_leaves.refine fun l _ => each l
  rwa [fieldPhrases, List.filterMap_eq_flatMap_toList, List.flatMap_assoc]

/-! ## Variants -/

/-- What a case holds are parts of its leaf. -/
theorem CaseSyntax.parts {g : CaseGroup} {c : CaseSyntax} (mem : c ∈ g.cases.toList) :
    c.name.val ∈ g.tokens ∧
      (∀ s ∈ c.slots, s.typeTokens ∈ Items.gatherLeaf annotationPhrases (.cases g)) ∧
      ∀ s ∈ c.slots, ∀ ts ∈ s.labelTokens, ts <:+: g.tokens ∧ IsIdentifier ts := by
  have whole : c.tokens <:+: g.tokens := (infix_listed mem).trans g.infix_cases
  refine ⟨whole.subset List.mem_cons_self, fun s slot => ?_, fun s slot ts label => ?_⟩
  · exact List.mem_flatMap.mpr ⟨c, mem, List.mem_map_of_mem slot⟩
  · obtain ⟨part, is⟩ := s.takes_label ts label
    exact ⟨part.trans ((CaseSyntax.infix_slot slot).trans whole), is⟩

end Grammar

theorem isPlainName_positionalLabel (i : Nat) : IsPlainName (positionalLabel i) := by
  have chars : (positionalLabel i).toList = 'v' :: (toString (i : Int)).toList := by
    rw [positionalLabel, String.toList_append]
    rfl
  exact isPlainName_of_isPlain chars rfl (isPlain_positionalLabel i)

/-! ## What can be put in -/

section
variable {source : List Char} {i : Items} {t : Header × Items}

/-- The tokens of a leaf in a type are those of a part of the source. -/
theorem Grammar.Items.infix_leaf {l : Leaf} (tokens : i.tokens = (lex source).delivered)
    (type : t ∈ i.types) (leaf : l ∈ t.2.leaves) : l.tokens <:+: (lex source).delivered := by
  have inType := t.2.inOrder_leaves.infix_of_mem (List.mem_map_of_mem leaf)
  have inSource := i.inOrder_types.infix_of_mem (List.mem_map_of_mem type)
  rw [← tokens]
  exact inType.trans inSource

/-- The types in a leaf in a type are clear if those of the source are. -/
theorem Grammar.Items.clear_leaf {l : Leaf} (tokens : i.tokens = (lex source).delivered)
    (clear : ∀ ts ∈ i.gather annotationPhrases, IsClear ts) (type : t ∈ i.types)
    (leaf : l ∈ t.2.leaves) :
    ∀ ts ∈ gatherLeaf annotationPhrases l, ts <:+: (lex source).delivered ∧ IsClear ts := by
  intro ts mem
  have recorded := gatherMembers_subset type (gatherLeaf_subset leaf mem)
  have taken := i.infix_gather takes_annotations _ recorded
  rw [tokens] at taken
  exact ⟨taken.1, clear ts recorded⟩

/-- The name of a structure, class or enumeration can be put into generated code. -/
theorem Grammar.Header.isTypeName (clean : (lex source).stray? = none)
    (tokens : i.tokens = (lex source).delivered) (type : t ∈ i.types)
    (shape : t.1.nominalHead.kind.shape ≠ .other) (bare : StartsBare t.1.nominalHead.name) :
    IsTypeName t.1.nominalHead.name := by
  obtain ⟨h, members⟩ := t
  cases h with
  | structured head keyword name =>
    have inSource : name.val ∈ (lex source).delivered := by
      rw [← tokens]
      exact Items.header_subset type (by simp [Header.tokens])
    have identifier : name.val.kind.isIdentifier = true := by rw [name.kind_eq]; rfl
    obtain ⟨plain, kind⟩ := plain_of_mem clean inSource identifier bare
    exact ⟨plain, kind.trans name.kind_eq⟩
  | loose head keyword =>
    have other : ∀ k : Kind, k.isLooseNominal = true → (Header.kindOf k).shape = .other := by decide
    exact absurd (other _ keyword.property) shape

/-- The field of a phrase can be put into generated code, and its default carried along. -/
theorem Grammar.FieldPhrase.prints {p : FieldPhrase} {u : String} (clean : (lex source).stray? = none)
    (tokens : i.tokens = (lex source).delivered) (type : t ∈ i.types)
    (mem : p ∈ t.2.fieldPhrases) (clear : ∀ ts ∈ i.gather annotationPhrases, IsClear ts)
    (bare : StartsBare (p.field u).name) (unknown : IsFiller u) :
    (p.field u).Prints ∧ (p.field u).Carries p.values := by
  obtain ⟨l, leaf, phrase⟩ := List.mem_filterMap.mp mem
  obtain ⟨name, types, -⟩ := Leaf.parts_fieldPhrase phrase
  have part := Items.infix_leaf tokens type leaf
  obtain ⟨plain, kind⟩ := plain_of_mem clean (part.subset name) p.name.property bare
  refine ⟨⟨⟨plain, ?_⟩, ?_⟩, ?_, ?_⟩
  · have identifier := p.name.property
    rw [← kind] at identifier
    exact identifier
  · cases clause : p.clause with
    | none => simpa [field, clause] using unknown
    | some c =>
      obtain ⟨inSource, is⟩ := Items.clear_leaf tokens clear type leaf _ (types c clause)
      simpa [field, clause] using isFiller_type clean inSource is
  · cases value : p.value <;> simp [field, FieldPhrase.values, valueTokens, value, Expression.text]
  · intro v inside
    cases value : p.value with
    | none => simp [FieldPhrase.values, valueTokens, value] at inside
    | some e =>
      obtain rfl : v = e.value.tokens := by
        simpa [FieldPhrase.values, valueTokens, value] using inside
      exact e.value.isLevel

/-- The variant of a case can be put into generated code. -/
theorem Grammar.CaseSyntax.prints {g : CaseGroup} {c : CaseSyntax}
    (clean : (lex source).stray? = none) (tokens : i.tokens = (lex source).delivered)
    (type : t ∈ i.types) (leaf : Leaf.cases g ∈ t.2.leaves) (mem : c ∈ g.cases.toList)
    (clear : ∀ ts ∈ i.gather annotationPhrases, IsClear ts)
    (bare : StartsBare c.element.variant.name)
    (labels : ∀ s ∈ c.element.variant.slots, StartsBare s.label) : c.element.variant.Prints := by
  have part := Items.infix_leaf tokens type leaf
  have clear := Items.clear_leaf tokens clear type leaf
  obtain ⟨name, types, written⟩ := CaseSyntax.parts mem
  have same : c.element.variant.name = c.name.text := by
    unfold CaseElement.variant
    split <;> rfl
  rw [same] at bare
  obtain ⟨plain, kind⟩ := plain_of_mem clean (part.subset name) c.name.property bare
  refine ⟨?_, fun s slot => ?_⟩
  · rw [same]
    have identifier := c.name.property
    rw [← kind] at identifier
    exact ⟨plain, identifier⟩
  · have start := labels s slot
    rcases c.element.slots_variant with none | ⟨ps, payload, slots⟩
    · rw [none] at slot
      cases slot
    · rw [slots] at slot
      obtain ⟨⟨p, j⟩, place, rfl⟩ := List.mem_map.mp slot
      have element : p ∈ c.slots.map SlotSyntax.element := by
        rw [← c.element_payload, payload]
        exact List.fst_mem_of_mem_zipIdx place
      obtain ⟨e, inside, rfl⟩ := List.mem_map.mp element
      constructor
      · cases label : e.element.label with
        | none => simpa [PayloadElement.slot, label] using isPlainName_positionalLabel j
        | some l =>
          have phrase := e.label_eq
          rw [label, Option.toList_some, eq_comm, List.map_eq_singleton_iff] at phrase
          obtain ⟨ts, one, rfl⟩ := phrase
          obtain ⟨inLeaf, w, rfl, identifier⟩ := written e inside ts (by simp [one])
          rw [Token.stretch_singleton] at label
          have named : (e.element.slot j).label = w.text := by simp [PayloadElement.slot, label]
          rw [named] at start ⊢
          have source := part.subset (inLeaf.subset List.mem_cons_self)
          exact (plain_of_mem clean source identifier start).1
      · obtain ⟨inSource, is⟩ := clear _ (types e inside)
        cases e <;> exact isFiller_type clean inSource is

end

end Conformance
