import Conformance.Proofs.Grammar.Ends
import Conformance.Proofs.Grammar.MoveDeclarations
import Conformance.Proofs.Grammar.Prompt
import Conformance.Proofs.Model.Neighbours
import Conformance.Proofs.Token.Alone
import Mathlib.Data.List.Infix

/-!
# Recorded texts

Declarations keep two sorts of text: *types*, those of properties, slots and supertypes, and
*values*, those of properties, cases and slots along with the attributes of types.  Each text
is from a phrase of the source.

What is taken from the parts of a declaration is taken from all declarations in it
(`Gather`), and the same goes for the parts of their syntax.  So it is enough to compare the
two for a property, a case declaration and a header (`Grammar.Items.declarations_gather`),
and to find the tokens of a phrase in those of its part (`Grammar.Items.infix_gather`).
-/

namespace Conformance

/-! ## Declarations and all that is in them -/

/-- What is taken from each property, each case declaration and each head of a type. -/
structure Gather (P C H α : Type) where
  /-- From a property. -/
  property : P → List α
  /-- From a case declaration. -/
  cases : C → List α
  /-- From the head of a type. -/
  head : H → List α

section
variable {α : Type} (g : Gather PropertyDecl CaseDecl NominalHead α)

mutual
/-- What is taken from a member and from all members in it. -/
def Member.gather : Member → List α
  | .property p => g.property p
  | .cases c => g.cases c
  | .nominal head members => g.head head ++ Member.gatherAll members
  | .stateless _ | .directive _ => []

/-- What is taken from members. -/
def Member.gatherAll : List Member → List α
  | [] => []
  | m :: ms => m.gather ++ Member.gatherAll ms
end

/-- What is taken from a declaration and from all members in it. -/
def Declaration.gather : Declaration → List α
  | .nominal n => g.head n.head ++ Member.gatherAll g n.members
  | .stateless _ | .directive _ => []

end

/-! ## Recorded types and values -/

/-- The types that declarations record. -/
def recordedTypes : Gather PropertyDecl CaseDecl NominalHead String where
  property p := p.bindings.flatMap fun v => v.type.toList
  cases c := c.elements.flatMap fun e => (e.payload.getD []).map PayloadElement.type
  head h := h.inherited

/-- The values and attributes that declarations record. -/
def recordedValues : Gather PropertyDecl CaseDecl NominalHead String where
  property p := p.bindings.flatMap fun v => v.value.toList
  cases c := c.elements.flatMap fun e =>
    ((e.payload.getD []).flatMap fun s => s.default.toList) ++ e.raw.toList
  head h := h.attributes

/-- The types that the declarations of a source record. -/
def SourceFile.types (s : SourceFile) : List String :=
  s.declarations.flatMap (Declaration.gather recordedTypes)

/-- The values and attributes that the declarations of a source record. -/
def SourceFile.values (s : SourceFile) : List String :=
  s.declarations.flatMap (Declaration.gather recordedValues)

namespace Grammar

/-! ## Parts of phrases -/

section
variable {α : Type} {yield : α → List Token}

theorem infix_of_mem {as : List α} {a : α} (mem : a ∈ as) : yield a <:+: as.flatMap yield := by
  simpa using ((List.singleton_infix_iff a as).mpr mem).flatMap yield

theorem infix_listed {l : Listed α} {a : α} (mem : a ∈ l.toList) :
    yield a <:+: l.tokens yield := by
  rcases List.mem_cons.mp mem with rfl | mem
  · exact (List.prefix_append ..).isInfix
  · obtain ⟨⟨comma, b⟩, other, rfl⟩ := List.mem_map.mp mem
    let entry : Tok .comma × α → List Token := fun p => p.1.val :: yield p.2
    have part : entry (comma, b) <:+: l.others.flatMap entry := infix_of_mem other
    exact ((List.suffix_cons ..).isInfix.trans part).trans (List.suffix_append ..).isInfix

end

/-! ## Phrases and all that is in them -/

namespace Items

variable {α : Type} (g : Gather Property CaseGroup Header α)

/-- What is taken from a leaf inside a type. -/
def gatherLeaf : Leaf → List α
  | .property p => g.property p
  | .cases c => g.cases c
  | _ => []

/-- What is taken from a row inside a type. -/
def gatherMembers : Items → List α
  | nil => []
  | semicolon _ rest => gatherMembers rest
  | leaf l rest => gatherLeaf g l ++ gatherMembers rest
  | nominal header _ inner _ rest => g.head header ++ gatherMembers inner ++ gatherMembers rest

/-- What is taken from a row outside of any type. -/
def gather : Items → List α
  | nil => []
  | semicolon _ rest => gather rest
  | leaf _ rest => gather rest
  | nominal header _ inner _ rest => g.head header ++ gatherMembers g inner ++ gather rest

end Items

/-- What is taken from declarations is the image of what is taken from their syntax. -/
structure Agrees (r : Gather PropertyDecl CaseDecl NominalHead String)
    (g : Gather Property CaseGroup Header (List Token)) (text : List Token → String) : Prop where
  /-- For a property. -/
  property : ∀ p, r.property p.declaration = (g.property p).map text
  /-- For a case declaration. -/
  cases : ∀ c, r.cases c.declaration = (g.cases c).map text
  /-- For the head of a type. -/
  head : ∀ h, r.head h.nominalHead = (g.head h).map text

/-- What is taken are parts of phrases, all of one sort. -/
structure Takes (g : Gather Property CaseGroup Header (List Token)) (sort : List Token → Prop) :
    Prop where
  /-- From a property. -/
  property : ∀ p, ∀ ts ∈ g.property p, ts <:+: p.tokens ∧ sort ts
  /-- From a case declaration. -/
  cases : ∀ c, ∀ ts ∈ g.cases c, ts <:+: c.tokens ∧ sort ts
  /-- From the header of a type. -/
  head : ∀ h, ∀ ts ∈ g.head h, ts <:+: h.tokens ∧ sort ts

namespace Items

variable {r : Gather PropertyDecl CaseDecl NominalHead String}
  {g : Gather Property CaseGroup Header (List Token)} {text : List Token → String}
  {sort : List Token → Prop}

theorem members_gather (agrees : Agrees r g text) (i : Items) :
    Member.gatherAll r i.members = (i.gatherMembers g).map text := by
  induction i with
  | nil => rfl
  | semicolon mark rest ih => exact ih
  | leaf l rest ih =>
    have here : l.member.gather r = (gatherLeaf g l).map text := by
      cases l with
      | property p => exact agrees.property p
      | cases c => exact agrees.cases c
      | _ => rfl
    rw [members, Member.gatherAll, here, ih, gatherMembers, List.map_append]
  | nominal header opening inner closing rest ihInner ihRest =>
    simp only [members, Member.gatherAll, Member.gather, gatherMembers, List.map_append,
      agrees.head, ihInner, ihRest]

/-- What is taken from the declarations of a row is the image of what is taken from the row. -/
theorem declarations_gather (agrees : Agrees r g text) (i : Items) :
    i.declarations.flatMap (Declaration.gather r) = (i.gather g).map text := by
  induction i with
  | nil => rfl
  | semicolon mark rest ih => exact ih
  | leaf l rest ih =>
    have here : l.declaration.gather r = [] := by cases l <;> rfl
    rw [declarations, List.flatMap_cons, here, ih]
    rfl
  | nominal header opening inner closing rest ihInner ihRest =>
    simp only [declarations, List.flatMap_cons, Declaration.gather, gather, List.map_append,
      agrees.head, members_gather agrees, ihRest]

/-- The header of a type, its members and what is behind it are parts of a row. -/
theorem infix_nominal (header : Header) (opening : Tok .leftBrace) (inner : Items)
    (closing : Tok .rightBrace) (rest : Items) :
    let whole := (nominal header opening inner closing rest).tokens
    header.tokens <:+: whole ∧ inner.tokens <:+: whole ∧ rest.tokens <:+: whole :=
  ⟨⟨[], opening.val :: inner.tokens ++ closing.val :: rest.tokens, by simp [tokens]⟩,
    ⟨header.tokens ++ [opening.val], closing.val :: rest.tokens, by simp [tokens]⟩,
    ⟨header.tokens ++ opening.val :: inner.tokens ++ [closing.val], [], by simp [tokens]⟩⟩

theorem infix_gatherMembers (takes : Takes g sort) (i : Items) :
    ∀ ts ∈ i.gatherMembers g, ts <:+: i.tokens ∧ sort ts := by
  induction i with
  | nil => simp [gatherMembers]
  | semicolon mark rest ih =>
    intro ts mem
    obtain ⟨part, is⟩ := ih ts mem
    exact ⟨part.trans (List.suffix_cons ..).isInfix, is⟩
  | leaf l rest ih =>
    intro ts mem
    rcases List.mem_append.mp mem with here | later
    · have inLeaf : ts <:+: l.tokens ∧ sort ts := by
        cases l with
        | property p => exact takes.property p ts here
        | cases c => exact takes.cases c ts here
        | _ => cases here
      exact ⟨inLeaf.1.trans (List.prefix_append ..).isInfix, inLeaf.2⟩
    · obtain ⟨part, is⟩ := ih ts later
      exact ⟨part.trans (List.suffix_append ..).isInfix, is⟩
  | nominal header opening inner closing rest ihInner ihRest =>
    obtain ⟨headerPart, innerPart, restPart⟩ := infix_nominal header opening inner closing rest
    intro ts mem
    rcases List.mem_append.mp mem with front | later
    · rcases List.mem_append.mp front with here | within
      · obtain ⟨part, is⟩ := takes.head header ts here
        exact ⟨part.trans headerPart, is⟩
      · obtain ⟨part, is⟩ := ihInner ts within
        exact ⟨part.trans innerPart, is⟩
    · obtain ⟨part, is⟩ := ihRest ts later
      exact ⟨part.trans restPart, is⟩

/-- All that is taken from a row is taken from it as the members of a type. -/
theorem gather_subset (i : Items) : i.gather g ⊆ i.gatherMembers g := by
  induction i with
  | nil => exact List.Subset.refl _
  | semicolon mark rest ih => exact ih
  | leaf l rest ih => exact List.subset_append_of_subset_right _ ih
  | nominal header opening inner closing rest ihInner ihRest =>
    exact List.append_subset.mpr
      ⟨List.subset_append_left .., List.subset_append_of_subset_right _ ihRest⟩

theorem append_subset_append {β : Type} {as as' bs bs' : List β} (left : as ⊆ as')
    (right : bs ⊆ bs') : as ++ bs ⊆ as' ++ bs' :=
  List.append_subset.mpr ⟨List.subset_append_of_subset_left _ left,
    List.subset_append_of_subset_right _ right⟩

/-- Where more is taken from each part, more is taken from a row. -/
theorem gather_mono {g' : Gather Property CaseGroup Header (List Token)}
    (property : ∀ p, g.property p ⊆ g'.property p) (cases' : ∀ c, g.cases c ⊆ g'.cases c)
    (head : ∀ h, g.head h ⊆ g'.head h) (i : Items) : i.gather g ⊆ i.gather g' := by
  have members (i : Items) : i.gatherMembers g ⊆ i.gatherMembers g' := by
    induction i with
    | nil => exact List.Subset.refl _
    | semicolon mark rest ih => exact ih
    | leaf l rest ih =>
      refine append_subset_append ?_ ih
      cases l with
      | property p => exact property p
      | cases c => exact cases' c
      | _ => exact List.Subset.refl _
    | nominal header opening inner closing rest ihInner ihRest =>
      exact append_subset_append (append_subset_append (head header) ihInner) ihRest
  induction i with
  | nil => exact List.Subset.refl _
  | semicolon mark rest ih => exact ih
  | leaf l rest ih => exact ih
  | nominal header opening inner closing rest ihInner ihRest =>
    exact append_subset_append (append_subset_append (head header) (members inner)) ihRest

/-- What is taken from a row are parts of it. -/
theorem infix_gather (takes : Takes g sort) (i : Items) :
    ∀ ts ∈ i.gather g, ts <:+: i.tokens ∧ sort ts :=
  fun ts mem => infix_gatherMembers takes i ts (i.gather_subset mem)

end Items

/-! ## Types -/

/-- The types of a property. -/
def Binding.typeTokens : Binding → List (List Token)
  | plain _ clause _ _ | computed _ clause _ => (clause.map (·.type.tokens)).toList

/-- The type of a slot. -/
def SlotSyntax.typeTokens : SlotSyntax → List Token
  | labelled _ _ type _ | positional type _ => type.tokens

/-- The slots of a case. -/
def CaseSyntax.slots (c : CaseSyntax) : List SlotSyntax :=
  (c.payload.map PayloadSyntax.toList).getD []

theorem CaseSyntax.element_payload (c : CaseSyntax) :
    c.element.payload.getD [] = c.slots.map SlotSyntax.element := by
  unfold element slots
  cases c.payload <;> rfl

/-- The supertypes among the atoms behind a name. -/
def Header.looseTokens : List HeaderAtom → List (List Token)
  | a :: rest =>
    if atomKind? a == some .colon then
      ((cutAtCommas 0 [] rest).filter (!·.isEmpty)).map (·.flatMap Atom.tokens)
    else []
  | [] => []

/-- The supertypes of a header. -/
def Header.supertypeTokens : Header → List (List Token)
  | structured _ _ _ _ inheritance _ =>
    match inheritance with
    | some i => i.types.toList.map TypeTree.tokens
    | none => []
  | loose _ keyword _ atoms =>
    looseTokens (if keyword.val.kind == .extensionKw then (nameParts atoms).2 else atoms)

/-- The tokens of the types that are recorded. -/
def typePhrases : Gather Property CaseGroup Header (List Token) where
  property p := p.bindings.toList.flatMap Binding.typeTokens
  cases c := c.cases.toList.flatMap fun e => e.slots.map SlotSyntax.typeTokens
  head h := h.supertypeTokens

/-! ## Values -/

/-- The tokens of a value that may be missing. -/
def valueTokens (o : Option Initializer) : List (List Token) := (o.map (·.value.tokens)).toList

/-- The values of a property. -/
def Binding.initial : Binding → Option Initializer
  | plain _ _ initializer _ => initializer
  | computed .. => none

/-- The default value of a slot. -/
def SlotSyntax.default : SlotSyntax → Option Initializer
  | labelled _ _ _ default | positional _ default => default

/-- The tokens of the values and attributes that are recorded. -/
def valuePhrases : Gather Property CaseGroup Header (List Token) where
  property p := p.bindings.toList.flatMap fun b => valueTokens b.initial
  cases c := c.cases.toList.flatMap fun e =>
    (e.slots.flatMap fun s => valueTokens s.default) ++ valueTokens e.raw
  head h := h.head.attributes.map Attribute.tokens

/-! ## Recorded from the source -/

theorem agrees_types :
    Agrees recordedTypes typePhrases fun ts => Text.squash (Token.stretch ts) where
  property p := by
    have each (b : Binding) : b.declared.type.toList =
        b.typeTokens.map fun ts => Text.squash (Token.stretch ts) := by
      cases b with
      | plain pattern clause => cases clause <;> rfl
      | computed pattern clause => cases clause <;> rfl
    simp only [recordedTypes, Property.declaration, typePhrases, List.flatMap_map,
      List.map_flatMap, each]
  cases c := by
    have slot (s : SlotSyntax) : s.element.type = Text.squash (Token.stretch s.typeTokens) := by
      cases s <;> rfl
    simp only [recordedTypes, CaseGroup.declaration, typePhrases, List.flatMap_map,
      List.map_flatMap, CaseSyntax.element_payload, List.map_map]
    simp only [Function.comp_def, slot]
  head h := by
    have loose (atoms : List HeaderAtom) : Header.looseSupertypes atoms =
        (Header.looseTokens atoms).map fun ts => Text.squash (Token.stretch ts) := by
      unfold Header.looseSupertypes Header.looseTokens
      cases atoms with
      | nil => rfl
      | cons a rest =>
        dsimp only
        split
        · rw [List.map_map]
          rfl
        · rfl
    cases h with
    | structured head keyword name generics inheritance requirements =>
      cases inheritance with
      | none => rfl
      | some i =>
        simp only [recordedTypes, Header.nominalHead, Header.supertypes, typePhrases,
          Header.supertypeTokens, List.map_map]
        rfl
    | loose head keyword name atoms => exact loose _

theorem agrees_values : Agrees recordedValues valuePhrases Token.stretch where
  property p := by
    have each (b : Binding) : b.declared.value.toList =
        (valueTokens b.initial).map Token.stretch := by
      cases b with
      | plain pattern clause initializer => cases initializer <;> rfl
      | computed => rfl
    simp only [recordedValues, Property.declaration, valuePhrases, List.flatMap_map,
      List.map_flatMap, each]
  cases c := by
    have value (o : Option Initializer) : (o.map (·.value.text)).toList =
        (valueTokens o).map Token.stretch := by
      cases o <;> rfl
    have slot (s : SlotSyntax) : s.element.default.toList =
        (valueTokens s.default).map Token.stretch := by
      cases s <;> exact value _
    have raw (e : CaseSyntax) : e.element.raw.toList = (valueTokens e.raw).map Token.stretch :=
      value e.raw
    simp only [recordedValues, CaseGroup.declaration, valuePhrases, List.flatMap_map,
      List.map_flatMap, List.map_append, CaseSyntax.element_payload, slot, raw]
  head h := by
    simp only [recordedValues, Header.nominalHead, valuePhrases, List.map_map]
    rfl

/-! ## What phrases end in -/

theorem Group.endsText {b : Bracket} (g : Group b) : EndsText g.tokens := by
  refine .concat ?_
  rw [g.closing.kind_eq]
  cases b <;> rfl

theorem Atom.endsText {words : Kind → Bool} {brackets : Bracket → Bool}
    (ends : ∀ k, words k = true → k.endsText = true) (a : Atom words brackets) :
    EndsText a.tokens := by
  cases a with
  | word t => exact .of_all (by simpa [tokens] using ends _ t.property)
  | group b admitted g => exact g.endsText

theorem Expression.endsText (e : Expression) : EndsText e.tokens := by
  have each (a : ExpressionAtom) : EndsText a.tokens := by
    cases a with
    | plain a => exact a.endsText (by decide)
    | member dot name =>
      have member : ∀ k : Kind, k.isMemberWord = true → k.endsText = true := by decide
      have last : EndsText ([dot.val] ++ [name.val]) := .concat (member _ name.property)
      exact last
  exact (each e.first).append (.flatMap fun a _ => each a)

theorem Attribute.endsText (a : Attribute) : EndsText a.tokens := by
  have name : a.name.val.kind.endsText = true := by
    rw [a.name.kind_eq]
    rfl
  have front : EndsText ([a.sign.val] ++ [a.name.val]) := .concat name
  have arguments : EndsText (optionTokens Group.tokens a.arguments) := by
    cases a.arguments with
    | none => exact .of_all (by simp [optionTokens])
    | some g => exact g.endsText
  exact front.append arguments

/-- The kinds that types are made of. -/
def isTypeWord : Kind → Bool
  | .name | .atSign | .ampersand | .arrow | .dot | .comma | .colon | .leftAngle | .rightAngle
  | .leftParen | .rightParen | .leftSquare | .rightSquare => true
  | k => k.isSoftName || k.isEffect || k.isPostfix

theorem isTypeWord_word {p : Kind → Bool} (imp : ∀ k, p k = true → isTypeWord k = true)
    (w : Word p) : isTypeWord w.val.kind = true := imp _ w.property

theorem isTypeWord_words {p : Kind → Bool} (imp : ∀ k, p k = true → isTypeWord k = true)
    (ws : List (Word p)) : ∀ t ∈ ws.map Subtype.val, isTypeWord t.kind = true := by
  intro t mem
  obtain ⟨w, -, rfl⟩ := List.mem_map.mp mem
  exact isTypeWord_word imp w

theorem TypeTree.isTypeWord {p : TypePart} (t : TypeTree p) :
    ∀ u ∈ t.tokens, isTypeWord u.kind = true := by
  induction t with
  | function unit effects arrow result ihUnit ihResult =>
    simp only [tokens, List.forall_mem_append, List.forall_mem_cons, arrow.kind_eq]
    exact ⟨⟨ihUnit, isTypeWord_words (by decide) effects⟩, rfl, ihResult⟩
  | marked primary marks ih =>
    simp only [tokens, List.forall_mem_append]
    exact ⟨ih, isTypeWord_words (by decide) marks⟩
  | labelled label colon type ih =>
    simp only [tokens, List.forall_mem_cons, colon.kind_eq]
    exact ⟨isTypeWord_word (by decide) label, rfl, ih⟩
  | relabelled outer inner colon type ih =>
    simp only [tokens, List.forall_mem_cons, outer.kind_eq, colon.kind_eq]
    exact ⟨rfl, isTypeWord_word (by decide) inner, rfl, ih⟩
  | _ =>
    simp_all only [tokens, List.forall_mem_append, List.forall_mem_cons, Word.kind_eq,
      Grammar.isTypeWord, List.not_mem_nil, and_true, implies_true, false_implies]

/-! ## Recorded phrases -/

/-- Some tokens that can be cut out of a source. -/
structure IsCut (ts : List Token) : Prop where
  /-- There are some. -/
  ne_nil : ts ≠ []
  /-- The last may stand at the end of a text. -/
  ends : EndsText ts

theorem Expression.isCut (e : Expression) : IsCut e.tokens :=
  ⟨fun none => absurd (e.derives.isNullable (by simpa using none)) (by decide), e.endsText⟩

theorem Attribute.isCut (a : Attribute) : IsCut a.tokens :=
  ⟨List.cons_ne_nil _ _, a.endsText⟩

theorem TypeSyntax.isCut (t : TypeSyntax) : IsCut t.tokens := by
  have words : ∀ k : Kind, isTypeWord k = true → k.endsText = true := by decide
  refine ⟨fun none => ?_, .of_all fun u mem => words _ (t.isTypeWord u mem)⟩
  exact absurd ((TypeSyntax.derives t).isNullable (by simpa using none)) (by decide)

/-- The supertypes of a loose header are parts of its atoms. -/
theorem Header.takes_looseTokens {atoms : List HeaderAtom} :
    ∀ ts ∈ looseTokens atoms, ts <:+: atoms.flatMap Atom.tokens ∧ IsCut ts := by
  intro ts mem
  cases atoms with
  | nil => cases mem
  | cons a rest =>
    unfold looseTokens at mem
    dsimp only at mem
    split at mem
    next =>
      obtain ⟨piece, listed, rfl⟩ := List.mem_map.mp mem
      obtain ⟨cut, some⟩ := List.mem_filter.mp listed
      have inRest : piece <:+: rest := infix_cutAtCommas cut
      refine ⟨(inRest.flatMap _).trans (List.suffix_append ..).isInfix, ?_, ?_⟩
      · cases piece with
        | nil => cases some
        | cons b bs => simp [b.tokens_ne_nil]
      · exact .flatMap fun b _ => b.endsText (by decide)
    next => cases mem

theorem takes_clause {o : Option TypeClause} :
    ∀ ts ∈ (o.map (·.type.tokens)).toList, ts <:+: optionTokens TypeClause.tokens o ∧ IsCut ts := by
  intro ts mem
  cases o with
  | none => cases mem
  | some c =>
    obtain rfl := List.mem_singleton.mp mem
    exact ⟨(List.suffix_cons ..).isInfix, TypeSyntax.isCut c.type⟩

theorem takes_value {o : Option Initializer} :
    ∀ ts ∈ valueTokens o, ts <:+: optionTokens Initializer.tokens o ∧ IsCut ts := by
  intro ts mem
  cases o with
  | none => cases mem
  | some i =>
    obtain rfl := List.mem_singleton.mp mem
    exact ⟨(List.suffix_cons ..).isInfix, i.value.isCut⟩

theorem Binding.takes_type (b : Binding) :
    ∀ ts ∈ b.typeTokens, ts <:+: b.tokens ∧ IsCut ts := by
  intro ts mem
  cases b with
  | plain pattern clause initializer observers =>
    obtain ⟨part, cut⟩ := takes_clause ts mem
    exact ⟨part.trans ⟨pattern.tokens, _, (List.append_assoc ..).symm⟩, cut⟩
  | computed pattern clause accessors =>
    obtain ⟨part, cut⟩ := takes_clause ts mem
    exact ⟨part.trans ⟨pattern.tokens, accessors.tokens, rfl⟩, cut⟩

theorem Binding.takes_initial (b : Binding) :
    ∀ ts ∈ valueTokens b.initial, ts <:+: b.tokens ∧ IsCut ts := by
  intro ts mem
  cases b with
  | plain pattern clause initializer observers =>
    obtain ⟨part, cut⟩ := takes_value ts mem
    exact ⟨part.trans ⟨_, optionTokens Group.tokens observers, rfl⟩, cut⟩
  | computed => cases mem

theorem SlotSyntax.takes_type (s : SlotSyntax) :
    s.typeTokens <:+: s.tokens ∧ IsCut s.typeTokens := by
  cases s with
  | labelled label colon type default =>
    exact ⟨⟨[label.val, colon.val], optionTokens Initializer.tokens default, rfl⟩,
      TypeSyntax.isCut type⟩
  | positional type default => exact ⟨(List.prefix_append ..).isInfix, TypeSyntax.isCut type⟩

theorem SlotSyntax.takes_default (s : SlotSyntax) :
    ∀ ts ∈ valueTokens s.default, ts <:+: s.tokens ∧ IsCut ts := by
  intro ts mem
  have value := takes_value ts mem
  cases s <;> exact ⟨value.1.trans (List.suffix_append ..).isInfix, value.2⟩

theorem CaseSyntax.infix_slot {c : CaseSyntax} {s : SlotSyntax} (mem : s ∈ c.slots) :
    s.tokens <:+: c.tokens := by
  obtain ⟨name, payload, raw⟩ := c
  cases payload with
  | none => cases mem
  | some p =>
    obtain ⟨opening, slots, closing⟩ := p
    cases slots with
    | none => cases mem
    | some l =>
      refine (infix_listed mem).trans ⟨[name.val, opening.val],
        closing.val :: optionTokens Initializer.tokens raw, ?_⟩
      simp [tokens, optionTokens, PayloadSyntax.tokens]

/-- What is taken from each of some phrases in a list is taken from the list. -/
theorem takes_listed {α : Type} {yield : α → List Token} {take : α → List (List Token)}
    {sort : List Token → Prop} (each : ∀ a, ∀ ts ∈ take a, ts <:+: yield a ∧ sort ts)
    (l : Listed α) : ∀ ts ∈ l.toList.flatMap take, ts <:+: l.tokens yield ∧ sort ts := by
  intro ts mem
  obtain ⟨a, listed, taken⟩ := List.mem_flatMap.mp mem
  obtain ⟨part, is⟩ := each a ts taken
  exact ⟨part.trans (infix_listed listed), is⟩

theorem Property.infix_bindings (p : Property) : p.bindings.tokens Binding.tokens <:+: p.tokens :=
  (List.suffix_cons ..).isInfix.trans (List.suffix_append ..).isInfix

theorem CaseGroup.infix_cases (c : CaseGroup) : c.cases.tokens CaseSyntax.tokens <:+: c.tokens :=
  (List.suffix_cons ..).isInfix.trans (List.suffix_append ..).isInfix

/-- Recorded types are parts of the source. -/
theorem takes_types : Takes typePhrases IsCut where
  property p ts mem := by
    obtain ⟨part, cut⟩ := takes_listed Binding.takes_type p.bindings ts mem
    exact ⟨part.trans p.infix_bindings, cut⟩
  cases c ts mem := by
    have each (e : CaseSyntax) :
        ∀ ts ∈ e.slots.map SlotSyntax.typeTokens, ts <:+: e.tokens ∧ IsCut ts := by
      intro ts mem
      obtain ⟨s, slot, rfl⟩ := List.mem_map.mp mem
      exact ⟨s.takes_type.1.trans (CaseSyntax.infix_slot slot), s.takes_type.2⟩
    obtain ⟨part, cut⟩ := takes_listed each c.cases ts mem
    exact ⟨part.trans c.infix_cases, cut⟩
  head h ts mem := by
    cases h with
    | structured head keyword name generics inheritance requirements =>
      cases inheritance with
      | none => cases mem
      | some i =>
        obtain ⟨t, listed, rfl⟩ := List.mem_map.mp mem
        have clause : t.tokens <:+: i.tokens :=
          (infix_listed listed).trans (List.suffix_cons ..).isInfix
        exact ⟨clause.trans ⟨_, optionTokens WhereClause.tokens requirements, rfl⟩,
          TypeSyntax.isCut t⟩
    | loose head keyword name atoms =>
      obtain ⟨part, cut⟩ := Header.takes_looseTokens ts mem
      have whole : atoms.flatMap Atom.tokens <:+:
          (Header.loose head keyword name atoms).tokens :=
        ⟨head.tokens ++ [keyword.val, name.val], [], by simp [Header.tokens]⟩
      refine ⟨part.trans (List.IsInfix.trans ?_ whole), cut⟩
      split
      · exact (Header.suffix_nameParts atoms).isInfix.flatMap _
      · exact List.infix_refl _

/-- Recorded values and attributes are parts of the source. -/
theorem takes_values : Takes valuePhrases IsCut where
  property p ts mem := by
    obtain ⟨part, cut⟩ := takes_listed Binding.takes_initial p.bindings ts mem
    exact ⟨part.trans p.infix_bindings, cut⟩
  cases c ts mem := by
    have each (e : CaseSyntax) : ∀ ts ∈ (e.slots.flatMap fun s => valueTokens s.default) ++
        valueTokens e.raw, ts <:+: e.tokens ∧ IsCut ts := by
      intro ts mem
      rcases List.mem_append.mp mem with inSlots | inRaw
      · obtain ⟨s, slot, value⟩ := List.mem_flatMap.mp inSlots
        obtain ⟨part, cut⟩ := s.takes_default ts value
        exact ⟨part.trans (CaseSyntax.infix_slot slot), cut⟩
      · obtain ⟨part, cut⟩ := takes_value ts inRaw
        exact ⟨part.trans (List.suffix_append ..).isInfix, cut⟩
    obtain ⟨part, cut⟩ := takes_listed each c.cases ts mem
    exact ⟨part.trans c.infix_cases, cut⟩
  head h ts mem := by
    obtain ⟨a, listed, rfl⟩ := List.mem_map.mp mem
    have inHead : a.tokens <:+: h.head.tokens :=
      (infix_of_mem listed).trans (List.prefix_append ..).isInfix
    refine ⟨inHead.trans ?_, a.isCut⟩
    cases h with
    | structured head keyword name generics inheritance requirements =>
      exact ⟨[], _, by simp only [List.nil_append, Header.tokens, List.append_assoc]; rfl⟩
    | loose => exact (List.prefix_append ..).isInfix

end Grammar

open Grammar

/-- The phrases of an accepted source that are taken from it are slices of it. -/
theorem SourceFile.exists_phrases {text : String} {filename : Option String} {f : SourceFile}
    (accepted : read text filename = .ok f) :
    (lex text.toList).stray? = none ∧ ∃ i, readSyntax text.toList = .ok i ∧
      f.declarations = i.declarations ∧
      ∀ {g : Gather Property CaseGroup Header (List Token)}, Takes g IsCut → ∀ ts ∈ i.gather g,
        ts <:+: (lex text.toList).delivered ∧ IsCut ts ∧
          Token.stretch ts = Token.slice text.toList ts := by
  obtain ⟨i, clean, parsed, rfl⟩ := read_eq_ok.mp accepted
  have tokens := (tokens_of_parse parsed).1
  refine ⟨clean, i, readSyntax_eq_ok.mpr ⟨clean, parsed⟩, rfl, fun takes ts mem => ?_⟩
  have part := i.infix_gather takes ts mem
  rw [tokens] at part
  obtain ⟨q, tiles⟩ := (tiles_delivered text.toList).within part.1
  exact ⟨part.1, part.2, Token.stretch_eq_slice tiles⟩

end Conformance
