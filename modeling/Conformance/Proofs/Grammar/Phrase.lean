import Conformance.Proofs.Grammar.ItemDerivation

/-!
# Every derivation is that of a phrase

The converse of `derives`.  `IsPhrase r f` says what the trees `f` below the rule
`r` are: the forest of a phrase of the kind that belongs to the rule.  It is kept
by each rule (`IsPhrase.of_holds`), so by induction on derivations it holds of
all instances.  `exists_items` is the case of whole sources.
-/

namespace Conformance.Grammar

/-! ## Instances of bodies -/

/-- A forest is an instance of a body as far as its topmost rules go.  Of what stands below them
it is only known that `P` holds. -/
def Body.Holds (P : Rule → Forest → Prop) : Body → Forest → Prop
  | .word kinds, f => ∃ t : Token, t.kind ∈ kinds ∧ f = .ofToken t
  | .part r, f => ∃ g, P r g ∧ f = .under r g
  | .seq a b, f => ∃ g h, a.Holds P g ∧ b.Holds P h ∧ f = g ++ h
  | .choice a b, f => a.Holds P f ∨ b.Holds P f
  | .optional a, f => f = .nil ∨ a.Holds P f
  | .many a, f => ∃ gs : List Forest, (∀ g ∈ gs, a.Holds P g) ∧ f = .concat gs

/-- What each rule keeps holds of all instances. -/
theorem Derives.holds {P : Rule → Forest → Prop} (step : ∀ r f, r.body.Holds P f → P r f)
    {b : Body} {f : Forest} (h : Derives b f) : b.Holds P f := by
  induction h with
  | word mem => exact ⟨_, mem, rfl⟩
  | part _ ih => exact ⟨_, step _ _ ih, rfl⟩
  | seq _ _ ihFirst ihSecond => exact ⟨_, _, ihFirst, ihSecond, rfl⟩
  | left _ ih => exact .inl ih
  | right _ ih => exact .inr ih
  | missing => exact .inl rfl
  | present _ ih => exact .inr ih
  | none => exact ⟨[], by simp, rfl⟩
  | more _ _ ihFirst ihOthers =>
    obtain ⟨gs, each, rfl⟩ := ihOthers
    refine ⟨_ :: gs, ?_, rfl⟩
    intro g mem
    rcases List.mem_cons.mp mem with rfl | mem
    · exact ihFirst
    · exact each g mem

namespace Body.Holds

variable {P : Rule → Forest → Prop} {α : Type} {F : α → Forest} {b : Body} {f : Forest}

theorem exists_tok {k : Kind} (h : (Body.word [k]).Holds P f) :
    ∃ w : Tok k, f = .ofToken w.val := by
  obtain ⟨t, mem, rfl⟩ := h
  exact ⟨⟨t, by simpa using mem⟩, rfl⟩

theorem exists_word {kinds : List Kind} {p : Kind → Bool} (mem : ∀ k ∈ kinds, p k = true)
    (h : (Body.word kinds).Holds P f) : ∃ w : Word p, f = .ofToken w.val := by
  obtain ⟨t, here, rfl⟩ := h
  exact ⟨⟨t, mem _ here⟩, rfl⟩

theorem exists_part {r : Rule} (each : ∀ g, P r g → ∃ x, g = F x)
    (h : (Body.part r).Holds P f) : ∃ x, f = .under r (F x) := by
  obtain ⟨g, inner, rfl⟩ := h
  obtain ⟨x, rfl⟩ := each g inner
  exact ⟨x, rfl⟩

theorem exists_option (each : ∀ g, b.Holds P g → ∃ x, g = F x)
    (h : (Body.optional b).Holds P f) : ∃ o, f = optionForest F o := by
  rcases h with rfl | h
  · exact ⟨none, rfl⟩
  · obtain ⟨x, rfl⟩ := each f h
    exact ⟨some x, rfl⟩

theorem exists_list (each : ∀ g, b.Holds P g → ∃ x, g = F x)
    (h : (Body.many b).Holds P f) : ∃ xs : List α, f = .concat (xs.map F) := by
  obtain ⟨gs, all, rfl⟩ := h
  induction gs with
  | nil => exact ⟨[], rfl⟩
  | cons g gs ih =>
    obtain ⟨x, rfl⟩ := each g (all g (by simp))
    obtain ⟨xs, eq⟩ := ih fun g mem => all g (by simp [mem])
    exact ⟨x :: xs, by simp [eq]⟩

theorem exists_behind {k : Kind} (each : ∀ g, b.Holds P g → ∃ x, g = F x)
    (h : (Body.seq (.word [k]) b).Holds P f) :
    ∃ x : Tok k × α, f = .ofToken x.1.val ++ F x.2 := by
  obtain ⟨_, _, first, second, rfl⟩ := h
  obtain ⟨w, rfl⟩ := exists_tok first
  obtain ⟨x, rfl⟩ := each _ second
  exact ⟨(w, x), rfl⟩

theorem exists_listed (each : ∀ g, b.Holds P g → ∃ x, g = F x)
    (h : (Body.listed b).Holds P f) : ∃ l : Listed α, f = l.forest F := by
  obtain ⟨_, _, first, others, rfl⟩ := h
  obtain ⟨x, rfl⟩ := each _ first
  obtain ⟨xs, rfl⟩ := exists_list (fun g => exists_behind each) others
  exact ⟨⟨x, xs⟩, rfl⟩

theorem exists_group {opener closer : Kind} (each : ∀ g, P .any g → ∃ r : Run,
    .under .any g = r.forest) (h : (groupBody opener closer).Holds P f) :
    ∃ (o : Tok opener) (r : Run) (c : Tok closer),
      f = .ofToken o.val ++ (r.forest ++ .ofToken c.val) := by
  obtain ⟨_, _, first, ⟨_, _, ⟨gs, all, rfl⟩, last, rfl⟩, rfl⟩ := h
  obtain ⟨o, rfl⟩ := exists_tok first
  obtain ⟨c, rfl⟩ := exists_tok last
  suffices run : ∃ r : Run, Forest.concat gs = r.forest by
    obtain ⟨r, eq⟩ := run
    exact ⟨o, r, c, by rw [eq]⟩
  induction gs with
  | nil => exact ⟨.nil, rfl⟩
  | cons g gs ih =>
    obtain ⟨r, eq⟩ := ih fun g mem => all g (by simp [mem])
    obtain ⟨inner, known, rfl⟩ := all g (by simp)
    obtain ⟨one, here⟩ := each inner known
    -- The run of one tree has nothing behind its first token or group.
    cases one with
    | nil => simp [Run.forest, Forest.under] at here
    | word t rest =>
      simp only [Run.forest, Forest.under, Forest.node.injEq, true_and] at here
      exact ⟨.word t r, by simp [Run.forest, Forest.under, here.1, eq]⟩
    | group b opening body closing rest =>
      simp only [Run.forest, Forest.under, Forest.node.injEq, true_and] at here
      exact ⟨.group b opening body closing r, by simp [Run.forest, Forest.under, here.1, eq]⟩

end Body.Holds

/-! ## Phrases of the rules -/

/-- The trees of a type declaration, below a rule. -/
def IsNominal (r : Rule) (f : Forest) : Prop :=
  ∃ (h : Header) (o : Tok .leftBrace) (i : Items) (c : Tok .rightBrace),
    nominalRule h.keyword.kind = r ∧ f = h.forest (.under .memberBlock
      (.ofToken o.val ++ (i.forest ++ .ofToken c.val)))

/-- The trees of a leaf, below a rule. -/
def IsLeaf (r : Rule) (f : Forest) : Prop := ∃ l : Leaf, l.rule = r ∧ f = l.forest

/-- The trees below a rule are those of a phrase of its kind. -/
def IsPhrase : Rule → Forest → Prop
  | .start, f => ∃ i : Items, f = i.forest
  | .item, f => ∃ i : Items, .under .item f = i.forest
  | .decl, f => ∃ i : Items, .under .item (.under .decl f) = i.forest
  | .memberBlock, f => ∃ (o : Tok .leftBrace) (i : Items) (c : Tok .rightBrace),
      f = .ofToken o.val ++ (i.forest ++ .ofToken c.val)
  | .declHead, f => ∃ h : Head, .under .declHead f = h.forest
  | .declAttr, f => ∃ a : Attribute, f = a.forest
  | .modifier, f => ∃ m : Modifier, f = m.forest
  | .modifierDetail, f => ∃ (o : Tok .leftParen) (n : Tok .name) (c : Tok .rightParen),
      f = .ofToken o.val ++ (.ofToken n.val ++ .ofToken c.val)
  | .genericParams, f => ∃ c : GenericClause, f = c.forest
  | .genericParam, f => ∃ p : GenericParameter, f = p.forest
  | .inheritance, f => ∃ i : Inheritance, f = i.forest
  | .whereClause, f => ∃ w : WhereClause, f = w.forest
  | .headerAtom, f => ∃ a : HeaderAtom, f = a.forest
  | .structDecl, f => IsNominal .structDecl f
  | .classDecl, f => IsNominal .classDecl f
  | .enumDecl, f => IsNominal .enumDecl f
  | .actorDecl, f => IsNominal .actorDecl f
  | .protocolDecl, f => IsNominal .protocolDecl f
  | .extensionDecl, f => IsNominal .extensionDecl f
  | .bindingKw, f => ∃ w : Word Kind.isBinder, f = .ofToken w.val
  | .patternBinding, f => ∃ b : Binding, f = b.forest
  | .bindingPattern, f => ∃ p : BindingPattern, f = PatternTree.forest p
  | .typeClause, f => ∃ c : TypeClause, f = c.forest
  | .initializer, f => ∃ i : Initializer, f = i.forest
  | .accessorBlock, f => ∃ g : Group .brace, f = g.forest
  | .observerBlock, f => ∃ g : Group .observer, f = g.forest
  | .enumCase, f => ∃ c : CaseSyntax, f = c.forest
  | .casePayload, f => ∃ p : PayloadSyntax, f = p.forest
  | .payloadElem, f => ∃ s : SlotSyntax, f = s.forest
  | .payloadDefault, f => ∃ i : Initializer, f = i.forest
  | .rawValue, f => ∃ i : Initializer, f = i.forest
  | .funcName, f => ∃ n : Word Kind.isFunctionName, f = functionNameForest n
  | .importKind, f => ∃ w : Word Kind.isImportWord, f = .ofToken w.val
  | .sigAtom, f => ∃ a : SignatureAtom, f = a.forest
  | .type, f => ∃ t : TypeSyntax, f = TypeTree.forest t
  | .typeAttr, f => ∃ (s : Tok .atSign) (n : Tok .name), f = .ofToken s.val ++ .ofToken n.val
  | .typeBody, f => ∃ t : TypeTree .whole, .under .typeBody f = t.forest
  | .effect, f => ∃ w : Word Kind.isEffect, f = .ofToken w.val
  | .typeUnit, f => ∃ t : TypeTree .unit, f = t.forest
  | .typePrimary, f => ∃ t : TypeTree .primary, f = t.forest
  | .typeName, f => ∃ t : TypeTree .primary, .under .typeName f = t.forest
  | .typeIdent, f => ∃ t : TypeTree .identifier, f = t.forest
  | .genericArgs, f => ∃ (o : Tok .leftAngle) (first : TypeSyntax)
      (others : TypeTree .arguments) (c : Tok .rightAngle),
      f = .ofToken o.val ++
        (.under .type (TypeTree.forest first) ++ others.forest ++ .ofToken c.val)
  | .arrayType, f => ∃ t : TypeTree .primary, .under .arrayType f = t.forest
  | .dictType, f => ∃ t : TypeTree .primary, .under .dictType f = t.forest
  | .tupleType, f => ∃ t : TypeTree .primary, .under .tupleType f = t.forest
  | .tupleTypeElem, f => ∃ t : TypeTree .element, f = t.forest
  | .prefixedType, f => ∃ t : TypeTree .primary, .under .prefixedType f = t.forest
  | .typePostfix, f => ∃ w : Word Kind.isPostfix, f = .ofToken w.val
  | .expr, f => ∃ e : Expression, f = e.forest
  | .exprAtom, f => ∃ a : ExpressionAtom, f = a.forest
  | .dotName, f => ∃ w : Word Kind.isMemberWord, f = .ofToken w.val
  | .ident, f => ∃ w : Word Kind.isIdentifier, f = .ofToken w.val
  | .parenGroup, f => ∃ g : Group .paren, f = g.forest
  | .bracketGroup, f => ∃ g : Group .square, f = g.forest
  | .braceGroup, f => ∃ g : Group .brace, f = g.forest
  | .nestedObserverGroup, f => ∃ g : Group .observer, f = g.forest
  | .any, f => ∃ r : Run, .under .any f = r.forest
  | .token, f => ∃ t : PlainWord, f = .ofToken t.val
  | r, f => IsLeaf r f
namespace IsPhrase

variable {f : Forest}

/-! ### Groups, atoms and expressions -/

theorem of_group {b : Bracket} (h : (groupBody b.opener b.closer).Holds IsPhrase f) :
    ∃ g : Group b, f = g.forest := by
  obtain ⟨o, r, c, rfl⟩ := Body.Holds.exists_group (fun _ known => known) h
  exact ⟨⟨o, r, c⟩, rfl⟩

/-- A group as the only tree of a run. -/
theorem run_of_group {b : Bracket} (h : (Body.part b.rule).Holds IsPhrase f) :
    ∃ r : Run, .under .any f = r.forest := by
  obtain ⟨g, eq⟩ : ∃ g : Group b, f = .under b.rule g.forest := by
    cases b <;> exact Body.Holds.exists_part (fun _ known => known) h
  exact ⟨.group b g.opening g.body g.closing .nil, by rw [eq]; rfl⟩

theorem of_any (h : Rule.any.body.Holds IsPhrase f) : IsPhrase .any f := by
  rcases h with h | h | h | h | h
  · obtain ⟨t, rfl⟩ := Body.Holds.exists_part (fun _ known => known) h
    exact ⟨.word t .nil, rfl⟩
  · exact run_of_group (b := .paren) h
  · exact run_of_group (b := .square) h
  · exact run_of_group (b := .brace) h
  · exact run_of_group (b := .observer) h

theorem of_atom {kinds : List Kind} {words : Kind → Bool}
    (mem : ∀ k ∈ kinds, words k = true)
    (h : (Body.oneOf (.word kinds) [.part .parenGroup, .part .bracketGroup]).Holds IsPhrase f) :
    ∃ a : Atom words Bracket.isRoundOrSquare, f = a.forest := by
  rcases h with h | h | h
  · obtain ⟨w, rfl⟩ := Body.Holds.exists_word mem h
    exact ⟨.word w, rfl⟩
  · obtain ⟨g, rfl⟩ := Body.Holds.exists_part (fun _ known => known) h
    exact ⟨.group .paren rfl g, rfl⟩
  · obtain ⟨g, rfl⟩ := Body.Holds.exists_part (fun _ known => known) h
    exact ⟨.group .square rfl g, rfl⟩

theorem of_exprAtom (h : Rule.exprAtom.body.Holds IsPhrase f) : IsPhrase .exprAtom f := by
  rcases h with h | h | h | h | h
  · obtain ⟨w, rfl⟩ := Body.Holds.exists_word (fun k => mem_expressionWords.mp) h
    exact ⟨.plain (.word w), rfl⟩
  · obtain ⟨_, _, first, second, rfl⟩ := h
    obtain ⟨dot, rfl⟩ := Body.Holds.exists_tok first
    obtain ⟨name, rfl⟩ := Body.Holds.exists_part (fun _ known => known) second
    exact ⟨.member dot name, rfl⟩
  · obtain ⟨g, rfl⟩ := Body.Holds.exists_part (fun _ known => known) h
    exact ⟨.plain (.group .paren rfl g), rfl⟩
  · obtain ⟨g, rfl⟩ := Body.Holds.exists_part (fun _ known => known) h
    exact ⟨.plain (.group .square rfl g), rfl⟩
  · obtain ⟨g, rfl⟩ := Body.Holds.exists_part (fun _ known => known) h
    exact ⟨.plain (.group .brace rfl g), rfl⟩

theorem of_expr (h : Rule.expr.body.Holds IsPhrase f) : IsPhrase .expr f := by
  obtain ⟨_, _, first, others, rfl⟩ := h
  obtain ⟨a, rfl⟩ := Body.Holds.exists_part (fun _ known => known) first
  obtain ⟨as, rfl⟩ := Body.Holds.exists_list
    (fun _ => Body.Holds.exists_part fun _ known => known) others
  exact ⟨⟨a, as⟩, rfl⟩

theorem of_initializer (h : (Body.all (.word [.equal]) [.part .expr]).Holds IsPhrase f) :
    ∃ i : Initializer, f = i.forest := by
  obtain ⟨x, rfl⟩ := Body.Holds.exists_behind
    (fun _ => Body.Holds.exists_part fun _ known => known) h
  exact ⟨⟨x.1, x.2⟩, rfl⟩

/-! ### Types

A repetition in a rule is a list of forests, and a part of the tree of a type.  The lemmas named
`forest_of` build the part from the list. -/

theorem type_forest_of (attributes : List (Tok .atSign × Tok .name)) (t : TypeSyntax) :
    ∃ u : TypeSyntax, Forest.concat (attributes.map fun x =>
      .under .typeAttr (.ofToken x.1.val ++ .ofToken x.2.val)) ++ t.forest = u.forest := by
  induction attributes with
  | nil => exact ⟨t, rfl⟩
  | cons x xs ih =>
    obtain ⟨u, eq⟩ := ih
    exact ⟨.attributed x.1 x.2 u, by simp [Forest.under, TypeTree.forest, ← eq]⟩

theorem conjuncts_forest_of (units : List (Tok .ampersand × TypeTree .unit)) :
    ∃ t : TypeTree .conjuncts, Forest.concat (units.map fun x =>
      .ofToken x.1.val ++ .under .typeUnit x.2.forest) = t.forest := by
  induction units with
  | nil => exact ⟨.noConjunct, rfl⟩
  | cons x xs ih =>
    obtain ⟨t, eq⟩ := ih
    exact ⟨.conjunct x.1 x.2 t, by simp [TypeTree.forest, eq]⟩

theorem path_forest_of (parts : List (Tok .dot × TypeTree .identifier)) :
    ∃ t : TypeTree .path, Forest.concat (parts.map fun x =>
      .ofToken x.1.val ++ .under .typeIdent x.2.forest) = t.forest := by
  induction parts with
  | nil => exact ⟨.pathEnd, rfl⟩
  | cons x xs ih =>
    obtain ⟨t, eq⟩ := ih
    exact ⟨.member x.1 x.2 t, by simp [TypeTree.forest, eq]⟩

theorem arguments_forest_of (types : List (Tok .comma × TypeSyntax)) :
    ∃ t : TypeTree .arguments, Forest.concat (types.map fun x =>
      .ofToken x.1.val ++ .under .type x.2.forest) = t.forest := by
  induction types with
  | nil => exact ⟨.noArgument, rfl⟩
  | cons x xs ih =>
    obtain ⟨t, eq⟩ := ih
    exact ⟨.argument x.1 x.2 t, by simp [TypeTree.forest, eq]⟩

theorem moreElements_forest_of (elements : List (Tok .comma × TypeTree .element)) :
    ∃ t : TypeTree .moreElements, Forest.concat (elements.map fun x =>
      .ofToken x.1.val ++ .under .tupleTypeElem x.2.forest) = t.forest := by
  induction elements with
  | nil => exact ⟨.lastElement, rfl⟩
  | cons x xs ih =>
    obtain ⟨t, eq⟩ := ih
    exact ⟨.moreElements x.1 x.2 t, by simp [TypeTree.forest, eq]⟩

theorem elements_forest_of (elements : Option (Listed (TypeTree .element))) :
    ∃ t : TypeTree .elements, optionForest
      (Listed.forest fun e => .under .tupleTypeElem e.forest) elements = t.forest := by
  cases elements with
  | none => exact ⟨.noElement, rfl⟩
  | some l =>
    obtain ⟨t, eq⟩ := moreElements_forest_of l.others
    exact ⟨.someElements l.first t, by simp [TypeTree.forest, optionForest, Listed.forest, ← eq]⟩

theorem of_typeAttr (h : Rule.typeAttr.body.Holds IsPhrase f) : IsPhrase .typeAttr f := by
  obtain ⟨x, rfl⟩ := Body.Holds.exists_behind (fun _ => Body.Holds.exists_tok) h
  exact ⟨x.1, x.2, rfl⟩

theorem of_type (h : Rule.type.body.Holds IsPhrase f) : IsPhrase .type f := by
  obtain ⟨_, _, first, ⟨_, ⟨t, eq⟩, rfl⟩, rfl⟩ := h
  have one (g : Forest) (hg : (Body.part .typeAttr).Holds IsPhrase g) :
      ∃ x : Tok .atSign × Tok .name,
        g = .under .typeAttr (.ofToken x.1.val ++ .ofToken x.2.val) := by
    obtain ⟨_, ⟨sign, name, rfl⟩, rfl⟩ := hg
    exact ⟨(sign, name), rfl⟩
  obtain ⟨attributes, rfl⟩ := Body.Holds.exists_list one first
  have whole := type_forest_of attributes t
  rwa [← eq] at whole

theorem of_typeBody (h : Rule.typeBody.body.Holds IsPhrase f) : IsPhrase .typeBody f := by
  rcases h with ⟨_, _, first, others, rfl⟩ |
    ⟨_, _, first, ⟨_, _, hEffects, ⟨_, _, hArrow, hResult, rfl⟩, rfl⟩, rfl⟩
  · obtain ⟨unit, rfl⟩ := Body.Holds.exists_part (fun _ known => known) first
    obtain ⟨units, rfl⟩ := Body.Holds.exists_list (fun _ => Body.Holds.exists_behind
      fun _ => Body.Holds.exists_part fun _ known => known) others
    obtain ⟨more, eq⟩ := conjuncts_forest_of units
    exact ⟨.composed unit more, by simp [TypeTree.forest, ← eq]⟩
  · obtain ⟨unit, rfl⟩ := Body.Holds.exists_part (fun _ known => known) first
    obtain ⟨effects, rfl⟩ := Body.Holds.exists_list
      (fun _ => Body.Holds.exists_part fun _ known => known) hEffects
    obtain ⟨arrow, rfl⟩ := Body.Holds.exists_tok hArrow
    obtain ⟨result, rfl⟩ := Body.Holds.exists_part (fun _ known => known) hResult
    exact ⟨.function unit effects arrow result, rfl⟩

theorem of_effect (h : Rule.effect.body.Holds IsPhrase f) : IsPhrase .effect f :=
  Body.Holds.exists_word (by decide) h

theorem of_typeUnit (h : Rule.typeUnit.body.Holds IsPhrase f) : IsPhrase .typeUnit f := by
  obtain ⟨_, _, first, hMarks, rfl⟩ := h
  obtain ⟨primary, rfl⟩ := Body.Holds.exists_part (fun _ known => known) first
  obtain ⟨marks, rfl⟩ := Body.Holds.exists_list
    (fun _ => Body.Holds.exists_part fun _ known => known) hMarks
  exact ⟨.marked primary marks, rfl⟩

theorem of_typePrimary (h : Rule.typePrimary.body.Holds IsPhrase f) :
    IsPhrase .typePrimary f := by
  rcases h with h | h | h | h | h
  all_goals
    obtain ⟨_, ⟨t, eq⟩, rfl⟩ := h
    exact ⟨t, eq⟩

theorem of_typeName (h : Rule.typeName.body.Holds IsPhrase f) : IsPhrase .typeName f := by
  obtain ⟨_, _, first, hParts, rfl⟩ := h
  obtain ⟨identifier, rfl⟩ := Body.Holds.exists_part (fun _ known => known) first
  obtain ⟨parts, rfl⟩ := Body.Holds.exists_list (fun _ => Body.Holds.exists_behind
    fun _ => Body.Holds.exists_part fun _ known => known) hParts
  obtain ⟨path, eq⟩ := path_forest_of parts
  exact ⟨.named identifier path, by simp [TypeTree.forest, ← eq]⟩

theorem of_typeIdent (h : Rule.typeIdent.body.Holds IsPhrase f) : IsPhrase .typeIdent f := by
  obtain ⟨_, _, first, hArguments, rfl⟩ := h
  obtain ⟨name, rfl⟩ := Body.Holds.exists_tok first
  rcases hArguments with rfl | ⟨_, ⟨opening, type, others, closing, rfl⟩, rfl⟩
  · exact ⟨.plain name, rfl⟩
  · exact ⟨.generic name opening type others closing, rfl⟩

theorem of_genericArgs (h : Rule.genericArgs.body.Holds IsPhrase f) :
    IsPhrase .genericArgs f := by
  obtain ⟨_, _, hOpening, ⟨_, _, hTypes, hClosing, rfl⟩, rfl⟩ := h
  obtain ⟨opening, rfl⟩ := Body.Holds.exists_tok hOpening
  obtain ⟨closing, rfl⟩ := Body.Holds.exists_tok hClosing
  obtain ⟨types, rfl⟩ := Body.Holds.exists_listed
    (fun _ => Body.Holds.exists_part fun _ known => known) hTypes
  obtain ⟨others, eq⟩ := arguments_forest_of types.others
  exact ⟨opening, types.first, others, closing, by simp [Listed.forest, ← eq]⟩

theorem of_arrayType (h : Rule.arrayType.body.Holds IsPhrase f) : IsPhrase .arrayType f := by
  obtain ⟨_, _, hOpening, ⟨_, _, hElement, hClosing, rfl⟩, rfl⟩ := h
  obtain ⟨opening, rfl⟩ := Body.Holds.exists_tok hOpening
  obtain ⟨element, rfl⟩ := Body.Holds.exists_part (fun _ known => known) hElement
  obtain ⟨closing, rfl⟩ := Body.Holds.exists_tok hClosing
  exact ⟨.array opening element closing, rfl⟩

theorem of_dictType (h : Rule.dictType.body.Holds IsPhrase f) : IsPhrase .dictType f := by
  obtain ⟨_, _, hOpening, ⟨_, _, hKey, ⟨_, _, hColon, ⟨_, _, hValue, hClosing, rfl⟩, rfl⟩, rfl⟩,
    rfl⟩ := h
  obtain ⟨opening, rfl⟩ := Body.Holds.exists_tok hOpening
  obtain ⟨key, rfl⟩ := Body.Holds.exists_part (fun _ known => known) hKey
  obtain ⟨colon, rfl⟩ := Body.Holds.exists_tok hColon
  obtain ⟨value, rfl⟩ := Body.Holds.exists_part (fun _ known => known) hValue
  obtain ⟨closing, rfl⟩ := Body.Holds.exists_tok hClosing
  exact ⟨.dictionary opening key colon value closing, rfl⟩

theorem of_tupleType (h : Rule.tupleType.body.Holds IsPhrase f) : IsPhrase .tupleType f := by
  obtain ⟨_, _, hOpening, ⟨_, _, hElements, hClosing, rfl⟩, rfl⟩ := h
  obtain ⟨opening, rfl⟩ := Body.Holds.exists_tok hOpening
  obtain ⟨closing, rfl⟩ := Body.Holds.exists_tok hClosing
  obtain ⟨elements, rfl⟩ := Body.Holds.exists_option (fun _ => Body.Holds.exists_listed
    fun _ => Body.Holds.exists_part fun _ known => known) hElements
  obtain ⟨t, eq⟩ := elements_forest_of elements
  exact ⟨.tuple opening t closing, by simp [TypeTree.forest, ← eq]⟩

theorem of_tupleTypeElem (h : Rule.tupleTypeElem.body.Holds IsPhrase f) :
    IsPhrase .tupleTypeElem f := by
  rcases h with ⟨_, _, hLabel, ⟨_, _, hColon, hType, rfl⟩, rfl⟩ |
    ⟨_, _, hOuter, ⟨_, _, hInner, ⟨_, _, hColon, hType, rfl⟩, rfl⟩, rfl⟩ | hType
  · obtain ⟨label, rfl⟩ := Body.Holds.exists_part (fun _ known => known) hLabel
    obtain ⟨colon, rfl⟩ := Body.Holds.exists_tok hColon
    obtain ⟨type, rfl⟩ := Body.Holds.exists_part (fun _ known => known) hType
    exact ⟨.labelled label colon type, rfl⟩
  · obtain ⟨outer, rfl⟩ := Body.Holds.exists_tok hOuter
    obtain ⟨inner, rfl⟩ := Body.Holds.exists_part (fun _ known => known) hInner
    obtain ⟨colon, rfl⟩ := Body.Holds.exists_tok hColon
    obtain ⟨type, rfl⟩ := Body.Holds.exists_part (fun _ known => known) hType
    exact ⟨.relabelled outer inner colon type, rfl⟩
  · obtain ⟨type, rfl⟩ := Body.Holds.exists_part (fun _ known => known) hType
    exact ⟨.unlabelled type, rfl⟩

theorem of_prefixedType (h : Rule.prefixedType.body.Holds IsPhrase f) :
    IsPhrase .prefixedType f := by
  obtain ⟨x, rfl⟩ := Body.Holds.exists_behind
    (fun _ => Body.Holds.exists_part fun _ known => known) h
  exact ⟨.prefixed x.1 x.2, rfl⟩

theorem of_typePostfix (h : Rule.typePostfix.body.Holds IsPhrase f) :
    IsPhrase .typePostfix f :=
  Body.Holds.exists_word (by decide) h

theorem of_typeClause (h : Rule.typeClause.body.Holds IsPhrase f) : IsPhrase .typeClause f := by
  obtain ⟨x, rfl⟩ := Body.Holds.exists_behind
    (fun _ => Body.Holds.exists_part fun _ known => known) h
  exact ⟨⟨x.1, x.2⟩, rfl⟩

/-! ### Heads and headers -/

theorem of_declAttr (h : Rule.declAttr.body.Holds IsPhrase f) : IsPhrase .declAttr f := by
  obtain ⟨_, _, hSign, ⟨_, _, hName, hArguments, rfl⟩, rfl⟩ := h
  obtain ⟨sign, rfl⟩ := Body.Holds.exists_tok hSign
  obtain ⟨name, rfl⟩ := Body.Holds.exists_tok hName
  obtain ⟨arguments, rfl⟩ := Body.Holds.exists_option
    (fun _ => Body.Holds.exists_part fun _ known => known) hArguments
  exact ⟨⟨sign, name, arguments⟩, rfl⟩

theorem of_modifierDetail (h : Rule.modifierDetail.body.Holds IsPhrase f) :
    IsPhrase .modifierDetail f := by
  obtain ⟨_, _, hOpening, ⟨_, _, hDetail, hClosing, rfl⟩, rfl⟩ := h
  obtain ⟨opening, rfl⟩ := Body.Holds.exists_tok hOpening
  obtain ⟨detail, rfl⟩ := Body.Holds.exists_tok hDetail
  obtain ⟨closing, rfl⟩ := Body.Holds.exists_tok hClosing
  exact ⟨opening, detail, closing, rfl⟩

theorem of_modifier (h : Rule.modifier.body.Holds IsPhrase f) : IsPhrase .modifier f := by
  rcases h with ⟨_, _, hWord, rfl | ⟨_, ⟨opening, detail, closing, rfl⟩, rfl⟩, rfl⟩ | hWord
  · obtain ⟨word, rfl⟩ := Body.Holds.exists_word
      (fun _ mem => isModifier_iff.mpr (.inl mem)) hWord
    exact ⟨.plain word, Forest.append_nil _⟩
  · obtain ⟨word, rfl⟩ := Body.Holds.exists_word (fun _ => mem_detailWords.mp) hWord
    exact ⟨.detailed word opening detail closing, rfl⟩
  · obtain ⟨word, rfl⟩ := Body.Holds.exists_word
      (fun _ mem => isModifier_iff.mpr (.inr mem)) hWord
    exact ⟨.plain word, rfl⟩

theorem of_declHead (h : Rule.declHead.body.Holds IsPhrase f) : IsPhrase .declHead f := by
  obtain ⟨_, _, hAttributes, hModifiers, rfl⟩ := h
  obtain ⟨attributes, rfl⟩ := Body.Holds.exists_list
    (fun _ => Body.Holds.exists_part fun _ known => known) hAttributes
  obtain ⟨modifiers, rfl⟩ := Body.Holds.exists_list
    (fun _ => Body.Holds.exists_part fun _ known => known) hModifiers
  exact ⟨⟨attributes, modifiers⟩, rfl⟩

/-- The head of a declaration. -/
theorem exists_head (h : (Body.part .declHead).Holds IsPhrase f) :
    ∃ head : Head, f = head.forest := by
  obtain ⟨_, ⟨head, eq⟩, rfl⟩ := h
  exact ⟨head, eq⟩

theorem of_genericParam (h : Rule.genericParam.body.Holds IsPhrase f) :
    IsPhrase .genericParam f := by
  obtain ⟨_, _, hName, hConstraint, rfl⟩ := h
  obtain ⟨name, rfl⟩ := Body.Holds.exists_tok hName
  obtain ⟨constraint, rfl⟩ := Body.Holds.exists_option (fun _ => of_typeClause) hConstraint
  exact ⟨⟨name, constraint⟩, rfl⟩

theorem of_genericParams (h : Rule.genericParams.body.Holds IsPhrase f) :
    IsPhrase .genericParams f := by
  obtain ⟨_, _, hOpening, ⟨_, _, hParameters, hClosing, rfl⟩, rfl⟩ := h
  obtain ⟨opening, rfl⟩ := Body.Holds.exists_tok hOpening
  obtain ⟨parameters, rfl⟩ := Body.Holds.exists_listed
    (fun _ => Body.Holds.exists_part fun _ known => known) hParameters
  obtain ⟨closing, rfl⟩ := Body.Holds.exists_tok hClosing
  exact ⟨⟨opening, parameters, closing⟩, rfl⟩

theorem of_inheritance (h : Rule.inheritance.body.Holds IsPhrase f) :
    IsPhrase .inheritance f := by
  obtain ⟨_, _, hColon, hTypes, rfl⟩ := h
  obtain ⟨colon, rfl⟩ := Body.Holds.exists_tok hColon
  obtain ⟨types, rfl⟩ := Body.Holds.exists_listed
    (fun _ => Body.Holds.exists_part fun _ known => known) hTypes
  exact ⟨⟨colon, types⟩, rfl⟩

/-- Any number of atoms of a header. -/
theorem exists_headerAtoms (h : (Body.many (.part .headerAtom)).Holds IsPhrase f) :
    ∃ atoms : List HeaderAtom, f = headerForest atoms :=
  Body.Holds.exists_list (fun _ => Body.Holds.exists_part fun _ known => known) h

theorem of_whereClause (h : Rule.whereClause.body.Holds IsPhrase f) :
    IsPhrase .whereClause f := by
  obtain ⟨_, _, hKeyword, ⟨_, _, hFirst, hOthers, rfl⟩, rfl⟩ := h
  obtain ⟨keyword, rfl⟩ := Body.Holds.exists_tok hKeyword
  obtain ⟨first, rfl⟩ := Body.Holds.exists_part (fun _ known => known) hFirst
  obtain ⟨others, rfl⟩ := exists_headerAtoms hOthers
  exact ⟨⟨keyword, first, others⟩, rfl⟩

theorem isNominal_of_structured {kind : Kind} (structured : kind.isStructuredNominal = true)
    (h : (structuredBody kind).Holds IsPhrase f) : IsNominal (nominalRule kind) f := by
  obtain ⟨_, _, hHead, ⟨_, _, hKeyword, ⟨_, _, hName, ⟨_, _, hGenerics, ⟨_, _, hInheritance,
    ⟨_, _, hRequirements, ⟨_, ⟨opening, members, closing, rfl⟩, rfl⟩, rfl⟩, rfl⟩, rfl⟩, rfl⟩,
    rfl⟩, rfl⟩ := h
  obtain ⟨head, rfl⟩ := exists_head hHead
  obtain ⟨keyword, rfl⟩ := Body.Holds.exists_tok hKeyword
  obtain ⟨name, rfl⟩ := Body.Holds.exists_tok hName
  obtain ⟨generics, rfl⟩ := Body.Holds.exists_option
    (fun _ => Body.Holds.exists_part fun _ known => known) hGenerics
  obtain ⟨inheritance, rfl⟩ := Body.Holds.exists_option
    (fun _ => Body.Holds.exists_part fun _ known => known) hInheritance
  obtain ⟨requirements, rfl⟩ := Body.Holds.exists_option
    (fun _ => Body.Holds.exists_part fun _ known => known) hRequirements
  have is : keyword.val.kind = kind := by simpa using keyword.property
  exact ⟨.structured head ⟨keyword.val, by rw [is]; exact structured⟩ name generics inheritance
    requirements, opening, members, closing, by rw [Header.keyword, is], rfl⟩

theorem isNominal_of_loose {kind : Kind} (loose : kind.isLooseNominal = true)
    (h : (looseBody kind).Holds IsPhrase f) : IsNominal (nominalRule kind) f := by
  obtain ⟨_, _, hHead, ⟨_, _, hKeyword, ⟨_, _, hName, ⟨_, _, hAtoms,
    ⟨_, ⟨opening, members, closing, rfl⟩, rfl⟩, rfl⟩, rfl⟩, rfl⟩, rfl⟩ := h
  obtain ⟨head, rfl⟩ := exists_head hHead
  obtain ⟨keyword, rfl⟩ := Body.Holds.exists_tok hKeyword
  obtain ⟨name, rfl⟩ := Body.Holds.exists_tok hName
  obtain ⟨atoms, rfl⟩ := exists_headerAtoms hAtoms
  have is : keyword.val.kind = kind := by simpa using keyword.property
  exact ⟨.loose head ⟨keyword.val, by rw [is]; exact loose⟩ name atoms, opening, members,
    closing, by rw [Header.keyword, is], rfl⟩

/-! ### Properties and cases -/

theorem more_forest_of (patterns : List (Tok .comma × BindingPattern)) :
    ∃ t : PatternTree .more, Forest.concat (patterns.map fun x =>
      .ofToken x.1.val ++ .under .bindingPattern x.2.forest) = t.forest := by
  induction patterns with
  | nil => exact ⟨.last, rfl⟩
  | cons x xs ih =>
    obtain ⟨t, eq⟩ := ih
    exact ⟨.more x.1 x.2 t, by simp [PatternTree.forest, eq]⟩

theorem of_bindingPattern (h : Rule.bindingPattern.body.Holds IsPhrase f) :
    IsPhrase .bindingPattern f := by
  rcases h with hName | ⟨_, _, hOpening, ⟨_, _, hElements, hClosing, rfl⟩, rfl⟩
  · obtain ⟨name, rfl⟩ := Body.Holds.exists_part (fun _ known => known) hName
    exact ⟨.name name, rfl⟩
  · obtain ⟨opening, rfl⟩ := Body.Holds.exists_tok hOpening
    obtain ⟨closing, rfl⟩ := Body.Holds.exists_tok hClosing
    obtain ⟨elements, rfl⟩ := Body.Holds.exists_option (fun _ => Body.Holds.exists_listed
      fun _ => Body.Holds.exists_part fun _ known => known) hElements
    cases elements with
    | none => exact ⟨.tuple opening .none closing, rfl⟩
    | some l =>
      obtain ⟨others, eq⟩ := more_forest_of l.others
      exact ⟨.tuple opening (.some l.first others) closing,
        by simp [PatternTree.forest, optionForest, Listed.forest, ← eq]⟩

theorem of_patternBinding (h : Rule.patternBinding.body.Holds IsPhrase f) :
    IsPhrase .patternBinding f := by
  rcases h with
    ⟨_, _, hPattern, ⟨_, _, hClause, ⟨_, _, hInitializer, hObservers, rfl⟩, rfl⟩, rfl⟩ |
    ⟨_, _, hPattern, ⟨_, _, hClause, hAccessors, rfl⟩, rfl⟩
  all_goals
    obtain ⟨pattern, rfl⟩ := Body.Holds.exists_part (fun _ known => known) hPattern
    obtain ⟨clause, rfl⟩ := Body.Holds.exists_option
      (fun _ => Body.Holds.exists_part fun _ known => known) hClause
  · obtain ⟨initializer, rfl⟩ := Body.Holds.exists_option
      (fun _ => Body.Holds.exists_part fun _ known => known) hInitializer
    obtain ⟨observers, rfl⟩ := Body.Holds.exists_option
      (fun _ => Body.Holds.exists_part fun _ known => known) hObservers
    exact ⟨.plain pattern clause initializer observers, rfl⟩
  · obtain ⟨accessors, rfl⟩ := Body.Holds.exists_part (fun _ known => known) hAccessors
    exact ⟨.computed pattern clause accessors, rfl⟩

theorem of_varDecl (h : Rule.varDecl.body.Holds IsPhrase f) : IsPhrase .varDecl f := by
  obtain ⟨_, _, hHead, ⟨_, _, hClass, ⟨_, _, hBinder, hBindings, rfl⟩, rfl⟩, rfl⟩ := h
  obtain ⟨head, rfl⟩ := exists_head hHead
  obtain ⟨classWord, rfl⟩ := Body.Holds.exists_option (fun _ => Body.Holds.exists_tok) hClass
  obtain ⟨binder, rfl⟩ := Body.Holds.exists_part (fun _ known => known) hBinder
  obtain ⟨bindings, rfl⟩ := Body.Holds.exists_listed
    (fun _ => Body.Holds.exists_part fun _ known => known) hBindings
  exact ⟨.property ⟨head, classWord, binder, bindings⟩, rfl, rfl⟩

theorem of_payloadElem (h : Rule.payloadElem.body.Holds IsPhrase f) :
    IsPhrase .payloadElem f := by
  rcases h with ⟨_, _, hLabel, ⟨_, _, hColon, ⟨_, _, hType, hDefault, rfl⟩, rfl⟩, rfl⟩ |
    ⟨_, _, hType, hDefault, rfl⟩
  all_goals
    obtain ⟨type, rfl⟩ := Body.Holds.exists_part (fun _ known => known) hType
    obtain ⟨default, rfl⟩ := Body.Holds.exists_option
      (fun _ => Body.Holds.exists_part fun _ known => known) hDefault
  · obtain ⟨label, rfl⟩ := Body.Holds.exists_part (fun _ known => known) hLabel
    obtain ⟨colon, rfl⟩ := Body.Holds.exists_tok hColon
    exact ⟨.labelled label colon type default, rfl⟩
  · exact ⟨.positional type default, rfl⟩

theorem of_casePayload (h : Rule.casePayload.body.Holds IsPhrase f) :
    IsPhrase .casePayload f := by
  obtain ⟨_, _, hOpening, ⟨_, _, hSlots, hClosing, rfl⟩, rfl⟩ := h
  obtain ⟨opening, rfl⟩ := Body.Holds.exists_tok hOpening
  obtain ⟨closing, rfl⟩ := Body.Holds.exists_tok hClosing
  obtain ⟨slots, rfl⟩ := Body.Holds.exists_option (fun _ => Body.Holds.exists_listed
    fun _ => Body.Holds.exists_part fun _ known => known) hSlots
  exact ⟨⟨opening, slots, closing⟩, rfl⟩

theorem of_enumCase (h : Rule.enumCase.body.Holds IsPhrase f) : IsPhrase .enumCase f := by
  obtain ⟨_, _, hName, ⟨_, _, hPayload, hRaw, rfl⟩, rfl⟩ := h
  obtain ⟨name, rfl⟩ := Body.Holds.exists_part (fun _ known => known) hName
  obtain ⟨payload, rfl⟩ := Body.Holds.exists_option
    (fun _ => Body.Holds.exists_part fun _ known => known) hPayload
  obtain ⟨raw, rfl⟩ := Body.Holds.exists_option
    (fun _ => Body.Holds.exists_part fun _ known => known) hRaw
  exact ⟨⟨name, payload, raw⟩, rfl⟩

theorem of_caseDecl (h : Rule.caseDecl.body.Holds IsPhrase f) : IsPhrase .caseDecl f := by
  obtain ⟨_, _, hHead, ⟨_, _, hKeyword, hCases, rfl⟩, rfl⟩ := h
  obtain ⟨head, rfl⟩ := exists_head hHead
  obtain ⟨keyword, rfl⟩ := Body.Holds.exists_tok hKeyword
  obtain ⟨cases, rfl⟩ := Body.Holds.exists_listed
    (fun _ => Body.Holds.exists_part fun _ known => known) hCases
  exact ⟨.cases ⟨head, keyword, cases⟩, rfl, rfl⟩

/-! ### Leaves -/

theorem exists_signature (h : (Body.many (.part .sigAtom)).Holds IsPhrase f) :
    ∃ s : Signature, f = Signature.forest s :=
  Body.Holds.exists_list (fun _ => Body.Holds.exists_part fun _ known => known) h

theorem exists_body (h : (Body.optional (.part .braceGroup)).Holds IsPhrase f) :
    ∃ b : Option (Group .brace), f = Leaf.bodyForest b :=
  Body.Holds.exists_option (fun _ => Body.Holds.exists_part fun _ known => known) h

theorem of_funcName (h : Rule.funcName.body.Holds IsPhrase f) : IsPhrase .funcName f := by
  rcases h with hName | hOperator
  · obtain ⟨⟨t, identifier⟩, rfl⟩ := Body.Holds.exists_part (fun _ known => known) hName
    have named (k : Kind) : k.isIdentifier = true → k.isFunctionName = true := by
      cases k <;> decide
    exact ⟨⟨t, named _ identifier⟩, by simp [functionNameForest, identifier]⟩
  · obtain ⟨t, mem, rfl⟩ := hOperator
    have operator : t.kind.isFunctionName = true ∧ t.kind.isIdentifier = false := by
      revert mem
      cases t.kind <;> decide
    exact ⟨⟨t, operator.1⟩, by simp [functionNameForest, operator.2]⟩

theorem of_funcDecl (h : Rule.funcDecl.body.Holds IsPhrase f) : IsPhrase .funcDecl f := by
  obtain ⟨_, _, hHead, ⟨_, _, hClass, ⟨_, _, hKeyword, ⟨_, _, hName, ⟨_, _, hSignature, hBody,
    rfl⟩, rfl⟩, rfl⟩, rfl⟩, rfl⟩ := h
  obtain ⟨head, rfl⟩ := exists_head hHead
  obtain ⟨classWord, rfl⟩ := Body.Holds.exists_option (fun _ => Body.Holds.exists_tok) hClass
  obtain ⟨keyword, rfl⟩ := Body.Holds.exists_tok hKeyword
  obtain ⟨name, rfl⟩ := Body.Holds.exists_part (fun _ known => known) hName
  obtain ⟨signature, rfl⟩ := exists_signature hSignature
  obtain ⟨body, rfl⟩ := exists_body hBody
  exact ⟨.function head classWord keyword name signature body, rfl, rfl⟩

theorem of_initDecl (h : Rule.initDecl.body.Holds IsPhrase f) : IsPhrase .initDecl f := by
  obtain ⟨_, _, hHead, ⟨_, _, hKeyword, ⟨_, _, hSignature, hBody, rfl⟩, rfl⟩, rfl⟩ := h
  obtain ⟨head, rfl⟩ := exists_head hHead
  obtain ⟨keyword, rfl⟩ := Body.Holds.exists_tok hKeyword
  obtain ⟨signature, rfl⟩ := exists_signature hSignature
  obtain ⟨body, rfl⟩ := exists_body hBody
  exact ⟨.constructor head keyword signature body, rfl, rfl⟩

theorem of_deinitDecl (h : Rule.deinitDecl.body.Holds IsPhrase f) :
    IsPhrase .deinitDecl f := by
  obtain ⟨_, _, hHead, ⟨_, _, hKeyword, hBody, rfl⟩, rfl⟩ := h
  obtain ⟨head, rfl⟩ := exists_head hHead
  obtain ⟨keyword, rfl⟩ := Body.Holds.exists_tok hKeyword
  obtain ⟨body, rfl⟩ := exists_body hBody
  exact ⟨.destructor head keyword body, rfl, rfl⟩

theorem of_subscriptDecl (h : Rule.subscriptDecl.body.Holds IsPhrase f) :
    IsPhrase .subscriptDecl f := by
  obtain ⟨_, _, hHead, ⟨_, _, hKeyword, ⟨_, _, hSignature, hBody, rfl⟩, rfl⟩, rfl⟩ := h
  obtain ⟨head, rfl⟩ := exists_head hHead
  obtain ⟨keyword, rfl⟩ := Body.Holds.exists_tok hKeyword
  obtain ⟨signature, rfl⟩ := exists_signature hSignature
  obtain ⟨body, rfl⟩ := exists_body hBody
  exact ⟨.subscript head keyword signature body, rfl, rfl⟩

theorem of_typealiasDecl (h : Rule.typealiasDecl.body.Holds IsPhrase f) :
    IsPhrase .typealiasDecl f := by
  rcases h with ⟨_, _, hHead, ⟨_, _, hKeyword, ⟨_, _, hName, hSignature, rfl⟩, rfl⟩, rfl⟩ |
    ⟨_, _, hHead, ⟨_, _, hKeyword, ⟨_, _, hName, hSignature, rfl⟩, rfl⟩, rfl⟩
  all_goals
    obtain ⟨head, rfl⟩ := exists_head hHead
    obtain ⟨name, rfl⟩ := Body.Holds.exists_tok hName
    obtain ⟨signature, rfl⟩ := exists_signature hSignature
    obtain ⟨keyword, rfl⟩ := Body.Holds.exists_word (p := Kind.isAliasWord)
      (by decide) hKeyword
    exact ⟨.typeAlias head keyword name signature, rfl, rfl⟩

theorem of_importDecl (h : Rule.importDecl.body.Holds IsPhrase f) :
    IsPhrase .importDecl f := by
  obtain ⟨_, _, hHead, ⟨_, _, hKeyword, ⟨_, _, hWhat, ⟨_, _, hName, hPath, rfl⟩, rfl⟩, rfl⟩,
    rfl⟩ := h
  obtain ⟨head, rfl⟩ := exists_head hHead
  obtain ⟨keyword, rfl⟩ := Body.Holds.exists_tok hKeyword
  obtain ⟨what, rfl⟩ := Body.Holds.exists_option
    (fun _ => Body.Holds.exists_part fun _ known => known) hWhat
  obtain ⟨name, rfl⟩ := Body.Holds.exists_tok hName
  obtain ⟨path, rfl⟩ := Body.Holds.exists_list (fun _ => Body.Holds.exists_behind
    fun _ => Body.Holds.exists_part fun _ known => known) hPath
  exact ⟨.importing head keyword what name path, rfl, rfl⟩

/-! ### Rows -/

theorem of_decl (h : Rule.decl.body.Holds IsPhrase f) : IsPhrase .decl f := by
  have nominal {r : Rule} (h : (Body.part r).Holds IsPhrase f)
      (known : ∀ g, IsPhrase r g → IsNominal r g) : IsPhrase .decl f := by
    obtain ⟨_, inner, rfl⟩ := h
    obtain ⟨header, opening, members, closing, is, rfl⟩ := known _ inner
    exact ⟨.nominal header opening members closing .nil, by rw [← is]; rfl⟩
  have leaf {r : Rule} (h : (Body.part r).Holds IsPhrase f)
      (known : ∀ g, IsPhrase r g → IsLeaf r g) : IsPhrase .decl f := by
    obtain ⟨_, inner, rfl⟩ := h
    obtain ⟨l, is, rfl⟩ := known _ inner
    exact ⟨.leaf l .nil, by rw [← is]; rfl⟩
  rcases h with h | h | h | h | h | h | h | h | h | h | h | h | h | h | h
  iterate 6
    exact nominal h fun _ inner => inner
  all_goals exact leaf h fun _ inner => inner

theorem of_item (h : Rule.item.body.Holds IsPhrase f) : IsPhrase .item f := by
  rcases h with ⟨_, known, rfl⟩ | h
  · exact known
  · obtain ⟨mark, rfl⟩ := Body.Holds.exists_tok h
    exact ⟨.semicolon mark .nil, rfl⟩

theorem exists_items (h : (Body.many (.part .item)).Holds IsPhrase f) :
    ∃ i : Items, f = i.forest := by
  obtain ⟨gs, all, rfl⟩ := h
  induction gs with
  | nil => exact ⟨.nil, rfl⟩
  | cons g gs ih =>
    obtain ⟨i, eq⟩ := ih fun g mem => all g (by simp [mem])
    obtain ⟨_, ⟨one, here⟩, rfl⟩ := all g (by simp)
    exact ⟨one ++ i, by simp [eq, here]⟩

/-! ### All rules -/

/-- Each rule keeps the property of being a phrase. -/
theorem of_holds (r : Rule) (f : Forest) (h : r.body.Holds IsPhrase f) : IsPhrase r f := by
  cases r with
  | start => exact exists_items h
  | item => exact of_item h
  | decl => exact of_decl h
  | compilerControl =>
    obtain ⟨line, rfl⟩ := Body.Holds.exists_tok h
    exact ⟨.directive line, rfl, rfl⟩
  | declHead => exact of_declHead h
  | declAttr => exact of_declAttr h
  | modifier => exact of_modifier h
  | modifierDetail => exact of_modifierDetail h
  | genericParams => exact of_genericParams h
  | genericParam => exact of_genericParam h
  | inheritance => exact of_inheritance h
  | whereClause => exact of_whereClause h
  | headerAtom => exact of_atom (fun _ => mem_headerWords.mp) h
  | memberBlock =>
    obtain ⟨_, _, hOpening, ⟨_, _, hMembers, hClosing, rfl⟩, rfl⟩ := h
    obtain ⟨opening, rfl⟩ := Body.Holds.exists_tok hOpening
    obtain ⟨members, rfl⟩ := exists_items hMembers
    obtain ⟨closing, rfl⟩ := Body.Holds.exists_tok hClosing
    exact ⟨opening, members, closing, rfl⟩
  | structDecl => exact isNominal_of_structured rfl h
  | classDecl => exact isNominal_of_structured rfl h
  | enumDecl => exact isNominal_of_structured rfl h
  | actorDecl => exact isNominal_of_structured rfl h
  | protocolDecl => exact isNominal_of_loose rfl h
  | extensionDecl => exact isNominal_of_loose rfl h
  | varDecl => exact of_varDecl h
  | bindingKw => exact Body.Holds.exists_word (by decide) h
  | patternBinding => exact of_patternBinding h
  | bindingPattern => exact of_bindingPattern h
  | typeClause => exact of_typeClause h
  | initializer => exact of_initializer h
  | accessorBlock => exact of_group h
  | observerBlock => exact of_group h
  | caseDecl => exact of_caseDecl h
  | enumCase => exact of_enumCase h
  | casePayload => exact of_casePayload h
  | payloadElem => exact of_payloadElem h
  | payloadDefault => exact of_initializer h
  | rawValue => exact of_initializer h
  | funcDecl => exact of_funcDecl h
  | initDecl => exact of_initDecl h
  | deinitDecl => exact of_deinitDecl h
  | subscriptDecl => exact of_subscriptDecl h
  | typealiasDecl => exact of_typealiasDecl h
  | importDecl => exact of_importDecl h
  | funcName => exact of_funcName h
  | importKind => exact Body.Holds.exists_word (by decide) h
  | sigAtom => exact of_atom (fun _ => mem_signatureWords.mp) h
  | type => exact of_type h
  | typeAttr => exact of_typeAttr h
  | typeBody => exact of_typeBody h
  | effect => exact of_effect h
  | typeUnit => exact of_typeUnit h
  | typePrimary => exact of_typePrimary h
  | typeName => exact of_typeName h
  | typeIdent => exact of_typeIdent h
  | genericArgs => exact of_genericArgs h
  | arrayType => exact of_arrayType h
  | dictType => exact of_dictType h
  | tupleType => exact of_tupleType h
  | tupleTypeElem => exact of_tupleTypeElem h
  | prefixedType => exact of_prefixedType h
  | typePostfix => exact of_typePostfix h
  | expr => exact of_expr h
  | exprAtom => exact of_exprAtom h
  | dotName => exact Body.Holds.exists_word (fun _ => mem_memberWords.mp) h
  | ident => exact Body.Holds.exists_word (fun _ => mem_identifierWords.mp) h
  | parenGroup => exact of_group (b := .paren) h
  | bracketGroup => exact of_group (b := .square) h
  | braceGroup => exact of_group (b := .brace) h
  | nestedObserverGroup => exact of_group (b := .observer) h
  | any => exact of_any h
  | token => exact Body.Holds.exists_word (fun _ => mem_groupWords.mp) h

end IsPhrase

/-- A derivation of a whole source is that of a row. -/
theorem exists_items {f : Forest} (h : Derives (.part .start) f) :
    ∃ i : Items, f = i.derivation := by
  obtain ⟨g, ⟨i, rfl⟩, rfl⟩ := h.holds IsPhrase.of_holds
  exact ⟨i, rfl⟩

end Conformance.Grammar
