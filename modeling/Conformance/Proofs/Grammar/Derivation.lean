import Conformance.Grammar.Items
import Conformance.Proofs.Grammar.Rules

/-!
# The derivation of a phrase

Every phrase has a forest, its derivation tree or the trees below it.  The forest
has the tokens of the phrase (`tokens_forest`), and it is an instance of the rule
that the phrase belongs to (`derives`).

A phrase of its own rule is given by the forest *below* the rule, since the same
group of braces is a closure, a body or a block of accessors, each under a rule
of its own.
-/

namespace Conformance.Grammar

/-! ## Classes of kinds -/

/-- Every kind. -/
def allKinds : List Kind := groupWords ++ [
  .leftParen, .rightParen, .leftSquare, .rightSquare, .leftBrace, .observerBrace, .rightBrace]

theorem mem_allKinds (k : Kind) : k ∈ allKinds := by
  cases k <;> decide

instance {P : Kind → Prop} [DecidablePred P] : Decidable (∀ k, P k) :=
  decidable_of_iff (∀ k ∈ allKinds, P k) ⟨fun h k => h k (mem_allKinds k), fun h k _ => h k⟩

theorem mem_identifierWords : ∀ {k : Kind}, k ∈ identifierWords ↔ k.isIdentifier = true := by
  decide

theorem mem_memberWords : ∀ {k : Kind}, k ∈ memberWords ↔ k.isMemberWord = true := by
  decide

theorem mem_groupWords : ∀ {k : Kind}, k ∈ groupWords ↔ (!k.isBracket) = true := by
  decide

theorem mem_headerWords : ∀ {k : Kind}, k ∈ headerWords ↔ k.isHeaderWord = true := by
  decide

theorem mem_signatureWords : ∀ {k : Kind}, k ∈ signatureWords ↔ k.isSignatureWord = true := by
  decide

theorem mem_expressionWords :
    ∀ {k : Kind}, k ∈ expressionWords ↔ k.isExpressionWord = true := by
  decide

theorem mem_detailWords : ∀ {k : Kind}, k ∈ detailWords ↔ k.takesDetail = true := by
  decide

/-- A modifier either may have a detail or has none. -/
theorem isModifier_iff :
    ∀ {k : Kind}, k.isModifier = true ↔ k ∈ detailWords ∨ k ∈ plainModifiers := by
  decide

/-! ## Lists and options -/

/-- The trees of a phrase that may be missing. -/
def optionForest {α : Type} (f : α → Forest) : Option α → Forest
  | some a => f a
  | none => .nil

/-- The trees of phrases with commas between them. -/
def Listed.forest {α : Type} (f : α → Forest) (l : Listed α) : Forest :=
  f l.first ++ .concat (l.others.map fun (comma, a) => .ofToken comma.val ++ f a)

@[simp] theorem tokens_optionForest {α : Type} (f : α → Forest) (o : Option α) :
    (optionForest f o).tokens = optionTokens (fun a => (f a).tokens) o := by
  cases o <;> rfl

@[simp] theorem Listed.tokens_forest {α : Type} (f : α → Forest) (l : Listed α) :
    (l.forest f).tokens = l.tokens fun a => (f a).tokens := by
  simp [Listed.forest, Listed.tokens, List.flatMap_map]

namespace Derives

variable {α : Type} {a b : Body} {f : α → Forest}

theorem ofKind {k : Kind} (w : Tok k) : Derives (.word [k]) (.ofToken w.val) :=
  .word (by simpa using w.property)

theorem exists_seq {g : Forest} (h : Derives (.seq a b) g) :
    ∃ front back, Derives a front ∧ Derives b back ∧ g = front ++ back := by
  cases h with
  | seq first second => exact ⟨_, _, first, second, rfl⟩

theorem concat {as : List α} (each : ∀ a ∈ as, Derives b (f a)) :
    Derives (.many b) (.concat (as.map f)) := by
  induction as with
  | nil => exact .none
  | cons a as ih =>
    exact .more (each a (by simp)) (ih fun x hx => each x (by simp [hx]))

theorem option (each : ∀ a, Derives b (f a)) (o : Option α) :
    Derives (.optional b) (optionForest f o) := by
  cases o with
  | none => exact .missing
  | some a => exact .present (each a)

theorem listed (each : ∀ a, Derives b (f a)) (l : Listed α) :
    Derives (.listed b) (l.forest f) := by
  refine .seq (each l.first) (.concat fun (comma, a) _ => ?_)
  exact .seq (.ofKind comma) (each a)

end Derives

/-! ## Groups and atoms -/

/-- The rule of a bracket. -/
def Bracket.rule : Bracket → Rule
  | paren => .parenGroup
  | square => .bracketGroup
  | brace => .braceGroup
  | observer => .nestedObserverGroup

theorem Bracket.body_rule (b : Bracket) : b.rule.body = groupBody b.opener b.closer := by
  cases b <;> rfl

/-- The trees of a balanced run. -/
def Run.forest : Run → Forest
  | nil => .nil
  | word t rest => .node .any (.under .token (.ofToken t.val)) rest.forest
  | group b opening body closing rest =>
    .node .any (.under b.rule
      (.ofToken opening.val ++ (body.forest ++ .ofToken closing.val))) rest.forest

/-- The trees below the rule of a group. -/
def Group.forest {b : Bracket} (g : Group b) : Forest :=
  .ofToken g.opening.val ++ (g.body.forest ++ .ofToken g.closing.val)

@[simp] theorem Run.tokens_forest (r : Run) : r.forest.tokens = r.tokens := by
  induction r with
  | nil => rfl
  | word t rest ih => simp [Run.forest, Run.tokens, ih]
  | group b opening body closing rest ihBody ihRest =>
    simp [Run.forest, Run.tokens, ihBody, ihRest]

@[simp] theorem Group.tokens_forest {b : Bracket} (g : Group b) : g.forest.tokens = g.tokens := by
  simp [Group.forest, Group.tokens]

theorem Bracket.derives_any (b : Bracket) {f : Forest} (h : Derives b.rule.body f) :
    Derives (.part .any) (.under .any (.under b.rule f)) := by
  refine .part ?_
  cases b with
  | paren => exact .right (.left (.part h))
  | square => exact .right (.right (.left (.part h)))
  | brace => exact .right (.right (.right (.left (.part h))))
  | observer => exact .right (.right (.right (.right (.part h))))

theorem Run.derives (r : Run) : Derives (.many (.part .any)) r.forest := by
  induction r with
  | nil => exact .none
  | word t rest ih =>
    have first : Derives (.part .any) (.under .any (.under .token (.ofToken t.val))) :=
      .part (.left (.part (.word (mem_groupWords.mpr t.property))))
    exact .more first ih
  | group b opening body closing rest ihBody ihRest =>
    have inner : Derives b.rule.body
        (.ofToken opening.val ++ (body.forest ++ .ofToken closing.val)) := by
      rw [b.body_rule]
      exact .seq (.ofKind opening) (.seq ihBody (.ofKind closing))
    exact .more (b.derives_any inner) ihRest

theorem Group.derives {b : Bracket} (g : Group b) :
    Derives (groupBody b.opener b.closer) g.forest :=
  .seq (.ofKind g.opening) (.seq g.body.derives (.ofKind g.closing))

theorem Group.derives_rule {b : Bracket} (g : Group b) :
    Derives (.part b.rule) (.under b.rule g.forest) :=
  .part (b.body_rule ▸ g.derives)

namespace Atom

variable {words : Kind → Bool} {brackets : Bracket → Bool}

/-- The trees below the rule of an atom. -/
def forest : Atom words brackets → Forest
  | word t => .ofToken t.val
  | group b _ g => .under b.rule g.forest

@[simp] theorem tokens_forest (a : Atom words brackets) : a.forest.tokens = a.tokens := by
  cases a <;> simp [forest, tokens]

/-- An atom in round or square brackets. -/
theorem derives {kinds : List Kind} (mem : ∀ {k}, k ∈ kinds ↔ words k = true)
    (a : Atom words Bracket.isRoundOrSquare) :
    Derives (.oneOf (.word kinds) [.part .parenGroup, .part .bracketGroup]) a.forest := by
  cases a with
  | word t => exact .left (.word (mem.mpr t.property))
  | group b admitted g =>
    cases b with
    | paren => exact .right (.left g.derives_rule)
    | square => exact .right (.right g.derives_rule)
    | brace => simp [Bracket.isRoundOrSquare] at admitted
    | observer => simp [Bracket.isRoundOrSquare] at admitted

end Atom

/-- The trees of the atoms of a header. -/
def headerForest (atoms : List HeaderAtom) : Forest :=
  .concat (atoms.map fun a => .under .headerAtom a.forest)

/-- The trees of a signature. -/
def Signature.forest (s : Signature) : Forest :=
  .concat (s.map fun a => .under .sigAtom a.forest)

@[simp] theorem tokens_headerForest (atoms : List HeaderAtom) :
    (headerForest atoms).tokens = atoms.flatMap Atom.tokens := by
  simp [headerForest, List.flatMap_map]

@[simp] theorem Signature.tokens_forest (s : Signature) :
    (Signature.forest s).tokens = Signature.tokens s := by
  simp [Signature.forest, Signature.tokens, List.flatMap_map]

theorem HeaderAtom.derives (a : HeaderAtom) :
    Derives (.part .headerAtom) (.under .headerAtom a.forest) :=
  .part (Atom.derives mem_headerWords a)

theorem derives_headerForest (atoms : List HeaderAtom) :
    Derives (.many (.part .headerAtom)) (headerForest atoms) :=
  .concat fun a _ => HeaderAtom.derives a

theorem Signature.derives (s : Signature) :
    Derives (.many (.part .sigAtom)) (Signature.forest s) :=
  .concat fun a _ => .part (Atom.derives mem_signatureWords a)

/-! ## Expressions -/

/-- The trees below the rule of an atom. -/
def ExpressionAtom.forest : ExpressionAtom → Forest
  | plain a => a.forest
  | member dot name => .ofToken dot.val ++ .under .dotName (.ofToken name.val)

/-- The trees below the rule of an expression. -/
def Expression.forest (e : Expression) : Forest :=
  .under .exprAtom e.first.forest ++ .concat (e.others.map fun a => .under .exprAtom a.forest)

/-- The trees below the rule of an equals sign with its value. -/
def Initializer.forest (i : Initializer) : Forest :=
  .ofToken i.equal.val ++ .under .expr i.value.forest

@[simp] theorem ExpressionAtom.tokens_forest (a : ExpressionAtom) :
    a.forest.tokens = a.tokens := by
  cases a <;> simp [forest, tokens]

@[simp] theorem Expression.tokens_forest (e : Expression) : e.forest.tokens = e.tokens := by
  simp [forest, tokens, List.flatMap_map]

@[simp] theorem Initializer.tokens_forest (i : Initializer) : i.forest.tokens = i.tokens := by
  simp [forest, tokens]

theorem ExpressionAtom.derives (a : ExpressionAtom) :
    Derives (.part .exprAtom) (.under .exprAtom a.forest) := by
  refine .part ?_
  cases a with
  | plain a =>
    cases a with
    | word t => exact .left (.word (mem_expressionWords.mpr t.property))
    | group b admitted g =>
      cases b with
      | paren => exact .right (.right (.left g.derives_rule))
      | square => exact .right (.right (.right (.left g.derives_rule)))
      | brace => exact .right (.right (.right (.right g.derives_rule)))
      | observer => simp [Bracket.isPlain] at admitted
  | member dot name =>
    exact .right (.left (.seq (.ofKind dot)
      (.part (.word (mem_memberWords.mpr name.property)))))

theorem Expression.derives (e : Expression) : Derives (.part .expr) (.under .expr e.forest) :=
  .part (.seq e.first.derives (.concat fun a _ => a.derives))

theorem Initializer.derives (i : Initializer) :
    Derives (.all (.word [.equal]) [.part .expr]) i.forest :=
  .seq (.ofKind i.equal) i.value.derives

/-! ## Settled atoms -/

theorem Bracket.rule_ne_exprAtom (b : Bracket) : b.rule ≠ .exprAtom := by
  cases b <;> decide

theorem Run.settled_forest (r : Run) (behind : List Token) : r.forest.Settled behind := by
  induction r generalizing behind with
  | nil => trivial
  | word t rest ih => simp [forest, Forest.Settled, Forest.IsBareDot, Forest.under, ih]
  | group b opening body closing rest ihBody ihRest =>
    simp [forest, Forest.Settled, Forest.IsBareDot, Forest.settled_under b.rule_ne_exprAtom,
      Forest.settled_append, ihBody, ihRest]

theorem Group.settled_forest {b : Bracket} (g : Group b) (behind : List Token) :
    g.forest.Settled behind := by
  simp [forest, Forest.settled_append, Run.settled_forest]

namespace ExpressionAtom

/-- The tree of an atom. -/
def tree (a : ExpressionAtom) : Forest := .under .exprAtom a.forest

@[simp] theorem tokens_tree (a : ExpressionAtom) : a.tree.tokens = a.tokens := by
  simp [tree]

/-- An atom that is a bare dot. -/
def isBareDot : ExpressionAtom → Bool
  | plain (.word t) => t.val.kind == .dot
  | _ => false

/-- An atom is settled if it is no bare dot or no member word comes next. -/
theorem settled_tree (a : ExpressionAtom) (behind : List Token) :
    a.tree.Settled behind ↔
      (a.isBareDot = true → (behind.head?.map Token.kind).any Kind.isMemberWord = false) := by
  have words : (∀ t, behind.head? = some t → t.kind ∉ memberWords) ↔
      (behind.head?.map Token.kind).any Kind.isMemberWord = false := by
    cases behind <;> simp [mem_memberWords]
  cases a with
  | plain a =>
    cases a with
    | word t =>
      simp [tree, Forest.under, Forest.Settled, Forest.IsBareDot, forest, Atom.forest, isBareDot,
        Forest.ofToken, ← words]
    | group b admitted g =>
      have settled := (Forest.settled_under b.rule_ne_exprAtom ..).mpr (g.settled_forest behind)
      simp [tree, Forest.under, Forest.Settled, Forest.IsBareDot, forest, Atom.forest, isBareDot,
        Forest.ofToken] at settled ⊢
      exact settled
  | member dot name =>
    simp [tree, Forest.under, Forest.Settled, Forest.IsBareDot, forest, isBareDot,
      Forest.ofToken]

end ExpressionAtom

/-! ## Types -/

namespace TypeTree

/-- The trees of the marks behind a primary type. -/
def marksForest (marks : List (Word Kind.isPostfix)) : Forest :=
  .concat (marks.map fun w => .under .typePostfix (.ofToken w.val))

/-- The trees of the effects in front of an arrow. -/
def effectsForest (effects : List (Word Kind.isEffect)) : Forest :=
  .concat (effects.map fun w => .under .effect (.ofToken w.val))

/-- The trees of a part of a type: below the rule of the part, where it has one. -/
def forest : {p : TypePart} → TypeTree p → Forest
  | _, attributed sign name type =>
    .node .typeAttr (.ofToken sign.val ++ .ofToken name.val) type.forest
  | _, composed unit more => .under .typeBody (.under .typeUnit unit.forest ++ more.forest)
  | _, function unit effects arrow result =>
    .under .typeBody (.under .typeUnit unit.forest ++ (effectsForest effects ++
      (.ofToken arrow.val ++ .under .type result.forest)))
  | _, noConjunct => .nil
  | _, conjunct sign unit more =>
    .ofToken sign.val ++ .under .typeUnit unit.forest ++ more.forest
  | _, marked primary marks => .under .typePrimary primary.forest ++ marksForest marks
  | _, named first path =>
    .under .typeName (.under .typeIdent first.forest ++ path.forest)
  | _, array opening element closing =>
    .under .arrayType (.ofToken opening.val ++ (.under .type element.forest ++
      .ofToken closing.val))
  | _, dictionary opening key colon value closing =>
    .under .dictType (.ofToken opening.val ++ (.under .type key.forest ++
      (.ofToken colon.val ++ (.under .type value.forest ++ .ofToken closing.val))))
  | _, tuple opening elements closing =>
    .under .tupleType (.ofToken opening.val ++ (elements.forest ++ .ofToken closing.val))
  | _, prefixed word primary =>
    .under .prefixedType (.ofToken word.val ++ .under .typePrimary primary.forest)
  | _, pathEnd => .nil
  | _, member dot identifier path =>
    .ofToken dot.val ++ .under .typeIdent identifier.forest ++ path.forest
  | _, plain name => .ofToken name.val ++ .nil
  | _, generic name opening first others closing =>
    .ofToken name.val ++ .under .genericArgs (.ofToken opening.val ++
      (.under .type first.forest ++ others.forest ++ .ofToken closing.val))
  | _, noArgument => .nil
  | _, argument comma type others =>
    .ofToken comma.val ++ .under .type type.forest ++ others.forest
  | _, noElement => .nil
  | _, someElements first others => .under .tupleTypeElem first.forest ++ others.forest
  | _, unlabelled type => .under .type type.forest
  | _, labelled label colon type =>
    .under .ident (.ofToken label.val) ++ (.ofToken colon.val ++ .under .type type.forest)
  | _, relabelled outer inner colon type =>
    .ofToken outer.val ++ (.under .ident (.ofToken inner.val) ++
      (.ofToken colon.val ++ .under .type type.forest))
  | _, lastElement => .nil
  | _, moreElements comma element others =>
    .ofToken comma.val ++ .under .tupleTypeElem element.forest ++ others.forest

/-- What the trees of a part are an instance of. -/
def body : TypePart → Body
  | .whole => Rule.type.body
  | .conjuncts => .many (.all (.word [.ampersand]) [.part .typeUnit])
  | .unit => Rule.typeUnit.body
  | .primary => Rule.typePrimary.body
  | .path => .many (.all (.word [.dot]) [.part .typeIdent])
  | .identifier => Rule.typeIdent.body
  | .arguments => .many (.seq (.word [.comma]) (.part .type))
  | .elements => .optional (.listed (.part .tupleTypeElem))
  | .element => Rule.tupleTypeElem.body
  | .moreElements => .many (.seq (.word [.comma]) (.part .tupleTypeElem))

@[simp] theorem tokens_marksForest (marks : List (Word Kind.isPostfix)) :
    (marksForest marks).tokens = marks.map Subtype.val := by
  induction marks with
  | nil => rfl
  | cons w marks ih => simpa [marksForest] using ih

@[simp] theorem tokens_effectsForest (effects : List (Word Kind.isEffect)) :
    (effectsForest effects).tokens = effects.map Subtype.val := by
  induction effects with
  | nil => rfl
  | cons w effects ih => simpa [effectsForest] using ih

@[simp] theorem tokens_forest {p : TypePart} (t : TypeTree p) : t.forest.tokens = t.tokens := by
  induction t with
  | _ => simp_all [forest, tokens]

theorem derives_marks (marks : List (Word Kind.isPostfix)) :
    Derives (.many (.part .typePostfix)) (marksForest marks) := by
  have mem : ∀ k : Kind, k.isPostfix = true → k ∈ [Kind.question, .bang] := by decide
  exact .concat fun w _ => .part (.word (mem _ w.property))

theorem derives_effects (effects : List (Word Kind.isEffect)) :
    Derives (.many (.part .effect)) (effectsForest effects) := by
  have mem : ∀ k : Kind, k.isEffect = true → k ∈ [Kind.throwsKw, .rethrowsKw, .asyncKw] := by
    decide
  exact .concat fun w _ => .part (.word (mem _ w.property))

theorem derives {p : TypePart} (t : TypeTree p) : Derives (body p) t.forest := by
  induction t with
  | attributed sign name type ih =>
    obtain ⟨front, back, attributes, rest, eq⟩ := Derives.exists_seq ih
    have sign : Derives (.part .typeAttr)
        (.under .typeAttr (.ofToken sign.val ++ .ofToken name.val)) :=
      .part (.seq (.ofKind sign) (.ofKind name))
    rw [forest, eq]
    exact .seq (.more sign attributes) rest
  | composed unit more ihUnit ihMore =>
    exact .seq .none (.part (.left (.seq (.part ihUnit) ihMore)))
  | function unit effects arrow result ihUnit ihResult =>
    exact .seq .none (.part (.right (.seq (.part ihUnit) (.seq (derives_effects effects)
      (.seq (.ofKind arrow) (.part ihResult))))))
  | noConjunct => exact .none
  | conjunct sign unit more ihUnit ihMore =>
    exact .more (.seq (.ofKind sign) (.part ihUnit)) ihMore
  | marked primary marks ih => exact .seq (.part ih) (derives_marks marks)
  | named first path ihFirst ihPath => exact .left (.part (.seq (.part ihFirst) ihPath))
  | array opening element closing ih =>
    exact .right (.left (.part (.seq (.ofKind opening) (.seq (.part ih) (.ofKind closing)))))
  | dictionary opening key colon value closing ihKey ihValue =>
    exact .right (.right (.left (.part (.seq (.ofKind opening) (.seq (.part ihKey)
      (.seq (.ofKind colon) (.seq (.part ihValue) (.ofKind closing))))))))
  | tuple opening elements closing ih =>
    exact .right (.right (.right (.left (.part (.seq (.ofKind opening)
      (.seq ih (.ofKind closing)))))))
  | prefixed word primary ih =>
    exact .right (.right (.right (.right (.part (.seq (.ofKind word) (.part ih))))))
  | pathEnd => exact .none
  | member dot identifier path ihIdentifier ihPath =>
    exact .more (.seq (.ofKind dot) (.part ihIdentifier)) ihPath
  | plain name => exact .seq (.ofKind name) .missing
  | generic name opening first others closing ihFirst ihOthers =>
    exact .seq (.ofKind name) (.present (.part (.seq (.ofKind opening)
      (.seq (.seq (.part ihFirst) ihOthers) (.ofKind closing)))))
  | noArgument => exact .none
  | argument comma type others ihType ihOthers =>
    exact .more (.seq (.ofKind comma) (.part ihType)) ihOthers
  | noElement => exact .missing
  | someElements first others ihFirst ihOthers =>
    exact .present (.seq (.part ihFirst) ihOthers)
  | unlabelled type ih => exact .right (.right (.part ih))
  | labelled label colon type ih =>
    exact .left (.seq (.part (.word (mem_identifierWords.mpr label.property)))
      (.seq (.ofKind colon) (.part ih)))
  | relabelled outer inner colon type ih =>
    exact .right (.left (.seq (.ofKind outer)
      (.seq (.part (.word (mem_identifierWords.mpr inner.property)))
        (.seq (.ofKind colon) (.part ih)))))
  | lastElement => exact .none
  | moreElements comma element others ihElement ihOthers =>
    exact .more (.seq (.ofKind comma) (.part ihElement)) ihOthers

end TypeTree

namespace TypeSyntax

theorem derives (t : TypeSyntax) : Derives (.part .type) (.under .type t.forest) :=
  .part (TypeTree.derives t)

end TypeSyntax

/-- The trees below the rule of a type behind a colon. -/
def TypeClause.forest (c : TypeClause) : Forest :=
  .ofToken c.colon.val ++ .under .type c.type.forest

@[simp] theorem TypeClause.tokens_forest (c : TypeClause) : c.forest.tokens = c.tokens := by
  simp [forest, tokens]

theorem TypeClause.derives (c : TypeClause) :
    Derives (.all (.word [.colon]) [.part .type]) c.forest :=
  .seq (.ofKind c.colon) (TypeSyntax.derives c.type)

end Conformance.Grammar
