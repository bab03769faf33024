import Conformance.Proofs.Model.OpaqueBodies
import Conformance.Proofs.Model.Recorded

/-!
# Sources with the same tokens

What stands between the tokens of a source, comments included, shows nowhere but in the texts
that are cut out of it.  Of two sources with the same tokens, by kind and text, both are accepted
or none is, and both declare the same but for places and texts that are cut out.  The same code
is generated for both if the texts that it copies are the same as well: the types and values of
properties, and the types of slots (`SourceFile.read_sameTokens`).

Both parts are about declarations that are *abridged*.  Of a text that is copied an abridged
declaration keeps what a function shows of it: nothing for the first part, all of it for the
second.  Of any other text that is cut out it keeps only that there is one.
-/

namespace Conformance

open Grammar

/-! ## Abridged declarations -/

section
variable (shown : String → String)

/-- A variable with what is shown of its type and its value. -/
def Variable.abridge (b : Variable) : Variable :=
  ⟨b.name, b.type.map shown, b.value.map shown⟩

/-- A property without its place. -/
def PropertyDecl.abridge (p : PropertyDecl) : PropertyDecl :=
  { p with location := default, bindings := p.bindings.map (Variable.abridge shown) }

/-- A slot with what is shown of its type. -/
def PayloadElement.abridge (e : PayloadElement) : PayloadElement :=
  ⟨e.label, shown e.type, e.default.map fun _ => ""⟩

/-- A case with what is shown of the types of its slots. -/
def CaseElement.abridge (e : CaseElement) : CaseElement :=
  ⟨e.name, e.payload.map (List.map (PayloadElement.abridge shown)), e.raw.map fun _ => ""⟩

/-- Cases without their place. -/
def CaseDecl.abridge (c : CaseDecl) : CaseDecl :=
  { c with location := default, elements := c.elements.map (CaseElement.abridge shown) }

/-- The head of a type without its place, and with as many supertypes and attributes. -/
def NominalHead.abridge (h : NominalHead) : NominalHead :=
  { h with
    location := default
    inherited := h.inherited.map fun _ => ""
    attributes := h.attributes.map fun _ => "" }

mutual
/-- A member with all members in it abridged. -/
def Member.abridge : Member → Member
  | .property p => .property (p.abridge shown)
  | .cases c => .cases (c.abridge shown)
  | .nominal head members => .nominal head.abridge (Member.abridgeAll members)
  | .stateless d => .stateless (d.relocate fun _ => default)
  | .directive d => .directive (d.relocate fun _ => default)

/-- Members, each abridged. -/
def Member.abridgeAll : List Member → List Member
  | [] => []
  | m :: ms => m.abridge :: Member.abridgeAll ms
end

/-- A type with all members in it abridged. -/
def Nominal.abridge (t : Nominal) : Nominal :=
  ⟨t.head.abridge, Member.abridgeAll shown t.members⟩

/-- A declaration with all members in it abridged. -/
def Declaration.abridge : Declaration → Declaration
  | .nominal t => .nominal (t.abridge shown)
  | .stateless d => .stateless (d.relocate fun _ => default)
  | .directive d => .directive (d.relocate fun _ => default)

theorem Member.abridgeAll_eq_map (ms : List Member) :
    Member.abridgeAll shown ms = ms.map (Member.abridge shown) := by
  induction ms with
  | nil => rfl
  | cons m ms ih => rw [abridgeAll, ih, List.map_cons]

end

/-- A declaration without places and without the texts that are cut out of a source. -/
def Declaration.textless : Declaration → Declaration := Declaration.abridge fun _ => ""

/-! ## Code for abridged declarations -/

@[simp] theorem Variable.abridge_id : Variable.abridge id = id := by
  funext b
  simp [abridge]

theorem Member.field?_abridge (unknownType : String) (m : Member) :
    (m.abridge id).field? unknownType = m.field? unknownType := by
  cases m with
  | property p =>
    have bindings : (p.abridge id).bindings = p.bindings := by
      simp [PropertyDecl.abridge]
    have typeLevel : (p.abridge id).isTypeLevel = p.isTypeLevel := rfl
    have storage : (p.abridge id).storage = p.storage := rfl
    simp only [abridge, field?, PropertyDecl.field?, bindings, typeLevel, storage]
  | _ => rfl

theorem CaseElement.variant_abridge (e : CaseElement) : (e.abridge id).variant = e.variant := by
  have slot (s : PayloadElement) (i : Nat) : (s.abridge id).slot i = s.slot i := rfl
  obtain ⟨name, payload, raw⟩ := e
  cases raw with
  | some => rfl
  | none =>
    cases payload with
    | none => rfl
    | some slots =>
      simp only [abridge, variant, Option.map_some, Option.map_none, List.zipIdx_map,
        List.map_map]
      rfl

theorem Member.variants_abridge (m : Member) : (m.abridge id).variants = m.variants := by
  cases m with
  | cases c =>
    simp only [abridge, variants, CaseDecl.abridge, List.map_map]
    exact List.map_congr_left fun e _ => e.variant_abridge
  | _ => rfl

theorem Nominal.fields_abridge (t : Nominal) (unknownType : String) :
    (t.abridge id).fields unknownType = t.fields unknownType := by
  simp only [fields, abridge, Member.abridgeAll_eq_map, List.filterMap_map, Function.comp_def,
    Member.field?_abridge]

theorem Nominal.variants_abridge (t : Nominal) : (t.abridge id).variants = t.variants := by
  simp only [variants, abridge, Member.abridgeAll_eq_map, List.flatMap_map,
    Member.variants_abridge]

/-- What is left out does not count for blocks. -/
theorem Nominal.blocks_abridge (t : Nominal) (o : Options) (s : Settings) :
    (t.abridge id).blocks o s = t.blocks o s := by
  have product : (t.abridge id).productBlocks o s = t.productBlocks o s := by
    simp only [productBlocks, memberwiseInit, fields_abridge]
    rfl
  have sum : (t.abridge id).sumBlocks o s = t.sumBlocks o s := by
    simp only [sumBlocks, variants_abridge]
    rfl
  have shape : (t.abridge id).head.kind.shape = t.head.kind.shape := rfl
  rw [blocks, blocks, shape, product, sum]

theorem Declaration.blocks_abridge (d : Declaration) (o : Options) (s : Settings) :
    (d.abridge id).blocks o s = d.blocks o s := by
  cases d with
  | nominal t => exact t.blocks_abridge o s
  | _ => rfl

/-! ## Copied phrases -/

namespace Grammar

/-- The type and the initial value of a binding. -/
def Binding.copied (b : Binding) : List (List Token) := b.typeTokens ++ valueTokens b.initial

/-- The tokens of the texts that are copied into generated code. -/
def copiedPhrases : Gather Property CaseGroup Header (List Token) where
  property p := p.bindings.toList.flatMap Binding.copied
  cases := typePhrases.cases
  head _ := []

/-- Copied texts are parts of the source. -/
theorem takes_copied : Takes copiedPhrases IsCut where
  property p ts mem := by
    have each (b : Binding) : ∀ ts ∈ b.copied, ts <:+: b.tokens ∧ IsCut ts :=
      List.forall_mem_append.mpr ⟨b.takes_type, b.takes_initial⟩
    obtain ⟨part, cut⟩ := takes_listed each p.bindings ts mem
    exact ⟨part.trans p.infix_bindings, cut⟩
  cases := takes_types.cases
  head h ts mem := by cases mem

variable {v : Move} {shown : String → String}

/-! ## Phrases in another place -/

theorem valueTokens_move (o : Option Initializer) :
    valueTokens (o.map (Initializer.move v)) = (valueTokens o).map (List.map v.token) := by
  cases o with
  | none => rfl
  | some i => exact congrArg (fun ts => [ts]) (Expression.tokens_move i.value)

theorem clauseTokens_move (o : Option TypeClause) :
    ((o.map (TypeClause.move v)).map (·.type.tokens)).toList =
      (o.map (·.type.tokens)).toList.map (List.map v.token) := by
  cases o with
  | none => rfl
  | some c => exact congrArg (fun ts => [ts]) (TypeTree.tokens_move c.type)

theorem Binding.copied_move (b : Binding) :
    (b.move v).copied = b.copied.map (List.map v.token) := by
  cases b with
  | plain pattern clause initializer observers =>
    rw [copied, copied, List.map_append]
    exact congrArg₂ _ (clauseTokens_move clause) (valueTokens_move initializer)
  | computed pattern clause accessors =>
    rw [copied, copied, List.map_append]
    exact congrArg (· ++ []) (clauseTokens_move clause)

theorem SlotSyntax.typeTokens_move (s : SlotSyntax) :
    (s.move v).typeTokens = s.typeTokens.map v.token := by
  cases s <;> exact TypeTree.tokens_move _

theorem CaseSyntax.slots_move (c : CaseSyntax) :
    (c.move v).slots = c.slots.map (SlotSyntax.move v) := by
  obtain ⟨name, payload, raw⟩ := c
  cases payload with
  | none => rfl
  | some p =>
    obtain ⟨opening, slots, closing⟩ := p
    cases slots with
    | none => rfl
    | some l => exact l.toList_move v (SlotSyntax.move v)

/-- What is taken from each part that is moved are the tokens of the part, moved. -/
structure Moves (v : Move) (g : Gather Property CaseGroup Header (List Token)) : Prop where
  /-- From a property. -/
  property : ∀ p, g.property (p.move v) = (g.property p).map (List.map v.token)
  /-- From a case declaration. -/
  cases : ∀ c, g.cases (c.move v) = (g.cases c).map (List.map v.token)
  /-- From the header of a type. -/
  head : ∀ h, g.head (h.move v) = (g.head h).map (List.map v.token)

theorem moves_copied : Moves v copiedPhrases where
  property p := by
    simp only [copiedPhrases, Property.move, Listed.toList_move, List.flatMap_map,
      List.map_flatMap, Binding.copied_move]
  cases c := by
    simp only [copiedPhrases, typePhrases, CaseGroup.move, Listed.toList_move, List.flatMap_map,
      List.map_flatMap, CaseSyntax.slots_move, List.map_map, Function.comp_def,
      SlotSyntax.typeTokens_move]
  head _ := rfl

namespace Items

variable {g : Gather Property CaseGroup Header (List Token)}

theorem gatherMembers_move (moves : Moves v g) (i : Items) :
    (i.move v).gatherMembers g = (i.gatherMembers g).map (List.map v.token) := by
  induction i with
  | nil => rfl
  | semicolon mark rest ih => exact ih
  | leaf l rest ih =>
    have here : gatherLeaf g (l.move v) = (gatherLeaf g l).map (List.map v.token) := by
      cases l with
      | property p => exact moves.property p
      | cases c => exact moves.cases c
      | _ => rfl
    rw [move, gatherMembers, gatherMembers, here, ih, List.map_append]
  | nominal header opening inner closing rest ihInner ihRest =>
    simp only [move, gatherMembers, List.map_append, moves.head, ihInner, ihRest]

/-- What is taken from a row moves with the row. -/
theorem gather_move (moves : Moves v g) (i : Items) :
    (i.move v).gather g = (i.gather g).map (List.map v.token) := by
  induction i with
  | nil => rfl
  | semicolon mark rest ih => exact ih
  | leaf l rest ih => exact ih
  | nominal header opening inner closing rest ihInner ihRest =>
    simp only [move, gather, List.map_append, moves.head, gatherMembers_move moves, ihRest]

end Items

/-! ## Texts in another place -/

/-- A text from some tokens, cut out as it is or squashed, shows the same where they are moved. -/
def Move.ShowsAlike (v : Move) (shown : String → String) (ts : List Token) : Prop :=
  ∀ text : String → String,
    shown (text (Token.stretch (ts.map v.token))) = shown (text (Token.stretch ts))

theorem TypeSyntax.shown_move {t : TypeSyntax} (alike : v.ShowsAlike shown t.tokens) :
    shown (TypeSyntax.text (t.move v)) = shown (TypeSyntax.text t) := by
  rw [TypeSyntax.text, TypeTree.tokens_move]
  exact alike Text.squash

theorem TypeClause.shown_move {o : Option TypeClause}
    (alike : ∀ ts ∈ (o.map (·.type.tokens)).toList, v.ShowsAlike shown ts) :
    ((o.map (TypeClause.move v)).map (·.type.text)).map shown =
      (o.map (·.type.text)).map shown := by
  cases o with
  | none => rfl
  | some c => exact congrArg some (TypeSyntax.shown_move (alike _ (List.mem_singleton_self _)))

theorem Initializer.shown_move {o : Option Initializer}
    (alike : ∀ ts ∈ valueTokens o, v.ShowsAlike shown ts) :
    ((o.map (Initializer.move v)).map (·.value.text)).map shown =
      (o.map (·.value.text)).map shown := by
  cases o with
  | none => rfl
  | some i =>
    have value : (i.value.move v).text = Token.stretch (i.value.tokens.map v.token) := by
      rw [Expression.text, Expression.tokens_move]
    have same := alike _ (List.mem_singleton_self i.value.tokens) id
    exact congrArg some ((congrArg shown value).trans same)

/-- Values of which nothing shows are the same wherever they are moved. -/
theorem Initializer.blank_move (o : Option Initializer) :
    ((o.map (Initializer.move v)).map (·.value.text)).map (fun _ => "") =
      (o.map (·.value.text)).map fun _ => "" :=
  Initializer.shown_move fun _ _ _ => rfl

/-! ## Declarations in another place -/

theorem Binding.abridge_move {b : Binding} (alike : ∀ ts ∈ b.copied, v.ShowsAlike shown ts) :
    (b.move v).declared.abridge shown = b.declared.abridge shown := by
  obtain ⟨ofType, ofValue⟩ := List.forall_mem_append.mp alike
  cases b with
  | plain pattern clause initializer observers =>
    have type := TypeClause.shown_move ofType
    have value := Initializer.shown_move (o := initializer) ofValue
    simp only [Binding.move, declared, Variable.abridge, type, value, namePattern_move]
  | computed pattern clause accessors =>
    have type := TypeClause.shown_move ofType
    simp only [Binding.move, declared, Variable.abridge, type, namePattern_move]

theorem Property.abridge_move {p : Property}
    (alike : ∀ ts ∈ copiedPhrases.property p, v.ShowsAlike shown ts) :
    (p.move v).declaration.abridge shown = p.declaration.abridge shown := by
  have bindings : ((p.move v).bindings.toList.map Binding.declared).map (Variable.abridge shown) =
      (p.bindings.toList.map Binding.declared).map (Variable.abridge shown) := by
    simp only [Property.move, Listed.toList_move, List.map_map]
    exact List.map_congr_left fun b mem => Binding.abridge_move fun ts copied =>
      alike ts (List.mem_flatMap.mpr ⟨b, mem, copied⟩)
  have classWord : (p.move v).classWord.isSome = p.classWord.isSome := by simp [Property.move]
  simp only [declaration, PropertyDecl.abridge, bindings, classWord, storage_move]
  simp [Property.move, Head.modifiers_move]

theorem SlotSyntax.abridge_move {s : SlotSyntax} (alike : v.ShowsAlike shown s.typeTokens) :
    (s.move v).element.abridge shown = s.element.abridge shown := by
  cases s with
  | labelled label colon type default =>
    have text := TypeSyntax.shown_move alike
    simp only [SlotSyntax.move, element, PayloadElement.abridge, text, labelOf_move,
      Initializer.blank_move]
  | positional type default =>
    have text := TypeSyntax.shown_move alike
    simp only [SlotSyntax.move, element, PayloadElement.abridge, text, Initializer.blank_move]

theorem CaseSyntax.abridge_move {c : CaseSyntax}
    (alike : ∀ ts ∈ c.slots.map SlotSyntax.typeTokens, v.ShowsAlike shown ts) :
    (c.move v).element.abridge shown = c.element.abridge shown := by
  have slots : ((c.move v).slots.map SlotSyntax.element).map (PayloadElement.abridge shown) =
      (c.slots.map SlotSyntax.element).map (PayloadElement.abridge shown) := by
    simp only [slots_move, List.map_map]
    exact List.map_congr_left fun s mem => SlotSyntax.abridge_move
      (alike _ (List.mem_map_of_mem mem))
  obtain ⟨name, payload, raw⟩ := c
  have payloads : ((payload.map (PayloadSyntax.move v)).map fun p =>
        p.toList.map SlotSyntax.element).map (List.map (PayloadElement.abridge shown)) =
      (payload.map fun p => p.toList.map SlotSyntax.element).map
        (List.map (PayloadElement.abridge shown)) := by
    cases payload with
    | none => rfl
    | some p => exact congrArg some slots
  simp only [CaseSyntax.move, element, CaseElement.abridge, payloads, Initializer.blank_move,
    Word.text_move]

theorem CaseGroup.abridge_move {c : CaseGroup}
    (alike : ∀ ts ∈ copiedPhrases.cases c, v.ShowsAlike shown ts) :
    (c.move v).declaration.abridge shown = c.declaration.abridge shown := by
  have elements : ((c.move v).cases.toList.map CaseSyntax.element).map
        (CaseElement.abridge shown) =
      (c.cases.toList.map CaseSyntax.element).map (CaseElement.abridge shown) := by
    simp only [CaseGroup.move, Listed.toList_move, List.map_map]
    exact List.map_congr_left fun e mem => CaseSyntax.abridge_move fun ts slot =>
      alike ts (List.mem_flatMap.mpr ⟨e, mem, slot⟩)
  simp only [declaration, CaseDecl.abridge, elements]
  simp [CaseGroup.move, Head.modifiers_move]

namespace Header

theorem blank_looseSupertypes_move (atoms : List HeaderAtom) :
    (looseSupertypes (atoms.map (Atom.move v))).map (fun _ => "") =
      (looseSupertypes atoms).map fun _ => "" := by
  cases atoms with
  | nil => rfl
  | cons a rest =>
    simp only [List.map_cons, looseSupertypes, atomKind?_move]
    split
    · simp only [pieces_move, List.map_map, Function.comp_def]
    · rfl

/-- There are as many supertypes. -/
theorem blank_supertypes_move (h : Header) :
    (h.move v).supertypes.map (fun _ => "") = h.supertypes.map fun _ => "" := by
  cases h with
  | structured head keyword name generics inheritance requirements =>
    cases inheritance with
    | none => rfl
    | some i =>
      simp only [Header.move, supertypes, Option.map_some, Inheritance.move, Listed.toList_move,
        List.map_map, Function.comp_def]
  | loose head keyword name atoms =>
    simp only [Header.move, supertypes, Word.val_move, v.kind_token, nameParts_move]
    split <;> exact blank_looseSupertypes_move _

theorem abridge_move (h : Header) :
    (h.move v).nominalHead.abridge = h.nominalHead.abridge := by
  have head : (h.move v).head = h.head.move v := by cases h <;> rfl
  have attributes : ((h.head.move v).attributes.map Attribute.text).map (fun _ => "") =
      (h.head.attributes.map Attribute.text).map fun _ => "" := by
    simp only [Head.move, List.map_map, Function.comp_def]
  simp only [nominalHead, NominalHead.abridge, head, keyword_move, v.kind_token, fullName_move,
    blank_supertypes_move, Head.modifiers_move, attributes]

end Header

/-- Every place is moved to the same one if no place is seen. -/
theorem Move.places_default : v.Places (fun _ => default) fun _ => default := fun _ => rfl

theorem Leaf.abridge_member_move {l : Leaf}
    (alike : ∀ ts ∈ Items.gatherLeaf copiedPhrases l, v.ShowsAlike shown ts) :
    (l.move v).member.abridge shown = l.member.abridge shown := by
  cases l with
  | directive line => exact congrArg Member.directive (control_move v.places_default line)
  | property p => exact congrArg Member.property (Property.abridge_move alike)
  | cases c => exact congrArg Member.cases (CaseGroup.abridge_move alike)
  | _ => exact congrArg Member.stateless (stateless_move v.places_default _)

theorem Leaf.abridge_declaration_move (l : Leaf) :
    (l.move v).declaration.abridge shown = l.declaration.abridge shown := by
  cases l with
  | directive line => exact congrArg Declaration.directive (control_move v.places_default line)
  | _ => exact congrArg Declaration.stateless (stateless_move v.places_default _)

namespace Items

theorem abridge_members_move {i : Items}
    (alike : ∀ ts ∈ i.gatherMembers copiedPhrases, v.ShowsAlike shown ts) :
    Member.abridgeAll shown (i.move v).members = Member.abridgeAll shown i.members := by
  induction i with
  | nil => rfl
  | semicolon mark rest ih => exact ih alike
  | leaf l rest ih =>
    obtain ⟨here, later⟩ := List.forall_mem_append.mp alike
    simp only [Items.move, members, Member.abridgeAll, Leaf.abridge_member_move here, ih later]
  | nominal header opening inner closing rest ihInner ihRest =>
    obtain ⟨within, later⟩ := List.forall_mem_append.mp alike
    simp only [Items.move, members, Member.abridgeAll, Member.abridge, header.abridge_move,
      ihInner within, ihRest later]

/-- The declarations of a row that is moved are the same where what is copied shows the same. -/
theorem abridge_declarations_move {i : Items}
    (alike : ∀ ts ∈ i.gather copiedPhrases, v.ShowsAlike shown ts) :
    (i.move v).declarations.map (Declaration.abridge shown) =
      i.declarations.map (Declaration.abridge shown) := by
  induction i with
  | nil => rfl
  | semicolon mark rest ih => exact ih alike
  | leaf l rest ih =>
    simp only [Items.move, declarations, List.map_cons, Leaf.abridge_declaration_move, ih alike]
  | nominal header opening inner closing rest ihInner ihRest =>
    obtain ⟨within, later⟩ := List.forall_mem_append.mp alike
    simp only [Items.move, declarations, List.map_cons, Declaration.abridge, Nominal.abridge,
      header.abridge_move, abridge_members_move within, ihRest later]

end Items

end Grammar

/-! ## Reading sources with the same tokens -/

/-- The parts of a text that are copied into generated code. -/
def copiedSlices (text : String) : List String :=
  match readSyntax text.toList with
  | .ok i => (i.gather copiedPhrases).map (Token.slice text.toList)
  | .error _ => []

/-- What is copied from an accepted source are the stretches of its phrases. -/
theorem copiedSlices_eq {text : String} {i : Items} (clean : (lex text.toList).stray? = none)
    (parsed : parse (lex text.toList).delivered = .done i []) :
    copiedSlices text = (i.gather copiedPhrases).map Token.stretch := by
  rw [copiedSlices, readSyntax_eq_ok.mpr ⟨clean, parsed⟩]
  refine List.map_congr_left fun ts mem => ?_
  have part := (i.infix_gather takes_copied ts mem).1
  rw [(tokens_of_parse parsed).1] at part
  obtain ⟨q, tiles⟩ := (tiles_delivered text.toList).within part
  exact (Token.stretch_eq_slice tiles).symm

/-- The row of an accepted source can be moved to any source with the same tokens. -/
theorem exists_parse_move {text other : String} {i : Items}
    (same : tokenTexts other = tokenTexts text)
    (parsed : parse (lex text.toList).delivered = .done i []) :
    ∃ v : Move, parse (lex other.toList).delivered = .done (i.move v) [] := by
  obtain ⟨tokens, settled⟩ := tokens_of_parse parsed
  obtain ⟨v, moved, -⟩ := Move.exists_map_eq (nodup_delivered text.toList) same
  have settledMoved : (i.move v).forest.Settled [] := by
    rw [Items.forest_move]
    exact settled.move v
  have read := Items.parse_tokens settledMoved
  rw [i.tokens_move, tokens, moved] at read
  exact ⟨v, read⟩

namespace SourceFile

variable {text other : String} {filename otherName : Option String}

theorem exists_read_sameTokens {f : SourceFile} (clean : (lex other.toList).stray? = none)
    (same : tokenTexts other = tokenTexts text) (accepted : read text filename = .ok f) :
    ∃ g, read other otherName = .ok g := by
  obtain ⟨i, -, parsed, -⟩ := read_eq_ok.mp accepted
  obtain ⟨v, moved⟩ := exists_parse_move same parsed
  exact ⟨_, read_eq_ok.mpr ⟨i.move v, clean, moved, rfl⟩⟩

/-- Two sources that have the same tokens, by kind and text, and no stray characters are accepted
both or not at all.  Their declarations are the same without places and without the texts that
are cut out of the sources.  If the types and values of properties and the types of slots are
the same slices of both, the same text is generated for both. -/
theorem read_sameTokens (clean : (lex text.toList).stray? = none)
    (cleanOther : (lex other.toList).stray? = none) (same : tokenTexts other = tokenTexts text) :
    ((∃ f, read text filename = .ok f) ↔ ∃ g, read other otherName = .ok g) ∧
      ∀ f g, read text filename = .ok f → read other otherName = .ok g →
        g.declarations.map Declaration.textless = f.declarations.map Declaration.textless ∧
        (copiedSlices other = copiedSlices text → ∀ (o : Options) (s : Settings),
          renderUnits (g.units o s) = renderUnits (f.units o s)) := by
  refine ⟨⟨fun ⟨f, accepted⟩ => exists_read_sameTokens cleanOther same accepted,
    fun ⟨g, accepted⟩ => exists_read_sameTokens clean same.symm accepted⟩,
    fun f g acceptedText acceptedOther => ?_⟩
  obtain ⟨i, -, parsed, rfl⟩ := read_eq_ok.mp acceptedText
  obtain ⟨j, -, parsedOther, rfl⟩ := read_eq_ok.mp acceptedOther
  obtain ⟨v, moved⟩ := exists_parse_move same parsed
  obtain rfl : j = i.move v := by
    rw [moved] at parsedOther
    cases parsedOther
    rfl
  refine ⟨Items.abridge_declarations_move fun _ _ _ => rfl, fun slices => ?_⟩
  rw [copiedSlices_eq cleanOther moved, copiedSlices_eq clean parsed,
    Items.gather_move moves_copied, List.map_map, List.map_inj_left] at slices
  have declarations : (i.move v).declarations.map (Declaration.abridge id) =
      i.declarations.map (Declaration.abridge id) :=
    Items.abridge_declarations_move fun ts mem text => congrArg text (slices ts mem)
  exact renderUnits_congr_of Declaration.blocks_abridge declarations

/-- An enumeration in a few lines, with comments. -/
def spacedText : String :=
  "// first\nenum E: A, /* second */ B \x7b\n let a: [Int] = 1 + 2\n case b(c: Int = 3 + 4)\n\x7d\n"

/-- The same without comments, and with other blanks between the same tokens. -/
def denseText : String := "enum E:A,B\x7blet a:[Int]=1 + 2 case b(c:Int=3+4)\x7d"

theorem read_spacedText : ∃ f g, read spacedText none = .ok f ∧ read denseText none = .ok g ∧
    g.declarations.map Declaration.textless = f.declarations.map Declaration.textless ∧
    ∀ (o : Options) (s : Settings), renderUnits (g.units o s) = renderUnits (f.units o s) := by
  obtain ⟨f, readSpaced⟩ := exists_read spacedText (by decide +kernel)
  obtain ⟨g, readDense⟩ := exists_read denseText (by decide +kernel)
  have alike : (lex spacedText.toList).stray? = none ∧ (lex denseText.toList).stray? = none ∧
      tokenTexts denseText = tokenTexts spacedText ∧
      copiedSlices denseText = copiedSlices spacedText := by
    decide +kernel
  obtain ⟨clean, cleanDense, tokens, slices⟩ := alike
  obtain ⟨declarations, generated⟩ :=
    (read_sameTokens clean cleanDense tokens).2 f g readSpaced readDense
  exact ⟨f, g, readSpaced, readDense, declarations, generated slices⟩

end SourceFile

end Conformance
