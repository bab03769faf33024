import Conformance.Proofs.Grammar.Derivation

/-!
# The derivation of a row of declarations

The forests of heads, headers, properties, cases and leaves, and from them the
forest of a row.  `Items.derivation` is the derivation of a whole source.
-/

namespace Conformance.Grammar

/-! ## Heads -/

/-- The trees below the rule of an attribute. -/
def Attribute.forest (a : Attribute) : Forest :=
  .ofToken a.sign.val ++ (.ofToken a.name.val ++
    optionForest (fun g => .under .parenGroup g.forest) a.arguments)

/-- The trees below the rule of a modifier. -/
def Modifier.forest : Modifier → Forest
  | plain word => .ofToken word.val
  | detailed word opening detail closing =>
    .ofToken word.val ++ .under .modifierDetail
      (.ofToken opening.val ++ (.ofToken detail.val ++ .ofToken closing.val))

/-- The tree of a head. -/
def Head.forest (h : Head) : Forest :=
  .under .declHead (.concat (h.attributes.map fun a => .under .declAttr a.forest) ++
    .concat (h.modifiers.map fun m => .under .modifier m.forest))

@[simp] theorem Attribute.tokens_forest (a : Attribute) : a.forest.tokens = a.tokens := by
  simp [forest, tokens]

@[simp] theorem Modifier.tokens_forest (m : Modifier) : m.forest.tokens = m.tokens := by
  cases m <;> simp [forest, tokens]

@[simp] theorem Head.tokens_forest (h : Head) : h.forest.tokens = h.tokens := by
  simp [forest, tokens, List.flatMap_map]

theorem Attribute.derives (a : Attribute) :
    Derives (.part .declAttr) (.under .declAttr a.forest) :=
  .part (.seq (.ofKind a.sign) (.seq (.ofKind a.name)
    (.option (fun g => g.derives_rule) a.arguments)))

theorem Modifier.derives (m : Modifier) :
    Derives (.part .modifier) (.under .modifier m.forest) := by
  refine .part ?_
  cases m with
  | plain word =>
    rcases isModifier_iff.mp word.property with withDetail | without
    · have alone := Derives.seq (.word withDetail)
        (.missing (a := .part .modifierDetail))
      rw [Forest.append_nil] at alone
      exact .left alone
    · exact .right (.word without)
  | detailed word opening detail closing =>
    have inner : Derives (.part .modifierDetail) (.under .modifierDetail
        (.ofToken opening.val ++ (.ofToken detail.val ++ .ofToken closing.val))) :=
      .part (.seq (.ofKind opening) (.seq (.ofKind detail) (.ofKind closing)))
    exact .left (.seq (.word (mem_detailWords.mpr word.property)) (.present inner))

theorem Head.derives (h : Head) : Derives (.part .declHead) h.forest :=
  .part (.seq (.concat fun a _ => a.derives) (.concat fun m _ => m.derives))

/-! ## Headers -/

/-- The trees below the rule of a generic parameter. -/
def GenericParameter.forest (p : GenericParameter) : Forest :=
  .ofToken p.name.val ++ optionForest TypeClause.forest p.constraint

/-- The trees below the rule of generic parameters. -/
def GenericClause.forest (c : GenericClause) : Forest :=
  .ofToken c.opening.val ++
    (c.parameters.forest (fun p => .under .genericParam p.forest) ++ .ofToken c.closing.val)

/-- The trees below the rule of supertypes. -/
def Inheritance.forest (i : Inheritance) : Forest :=
  .ofToken i.colon.val ++ i.types.forest fun t => .under .type t.forest

/-- The trees below the rule of requirements. -/
def WhereClause.forest (w : WhereClause) : Forest :=
  .ofToken w.keyword.val ++ (.under .headerAtom w.first.forest ++ headerForest w.others)

/-- The rule of a type declaration, by its keyword. -/
def nominalRule : Kind → Rule
  | .structKw => .structDecl
  | .classKw => .classDecl
  | .enumKw => .enumDecl
  | .actorKw => .actorDecl
  | .protocolKw => .protocolDecl
  | _ => .extensionDecl

theorem nominalRule_ne_exprAtom : ∀ k, nominalRule k ≠ .exprAtom := by
  decide

/-- The trees below the rule of a type declaration, with those of its members. -/
def Header.forest (h : Header) (block : Forest) : Forest :=
  match h with
  | structured head keyword name generics inheritance requirements =>
    head.forest ++ (.ofToken keyword.val ++ (.ofToken name.val ++
      (optionForest (fun g => .under .genericParams g.forest) generics ++
      (optionForest (fun i => .under .inheritance i.forest) inheritance ++
      (optionForest (fun w => .under .whereClause w.forest) requirements ++ block)))))
  | loose head keyword name atoms =>
    head.forest ++ (.ofToken keyword.val ++ (.ofToken name.val ++ (headerForest atoms ++ block)))

@[simp] theorem GenericParameter.tokens_forest (p : GenericParameter) :
    p.forest.tokens = p.tokens := by
  simp [forest, tokens]

@[simp] theorem GenericClause.tokens_forest (c : GenericClause) :
    c.forest.tokens = c.tokens := by
  simp [forest, tokens]

@[simp] theorem Inheritance.tokens_forest (i : Inheritance) : i.forest.tokens = i.tokens := by
  simp [forest, tokens]

@[simp] theorem WhereClause.tokens_forest (w : WhereClause) : w.forest.tokens = w.tokens := by
  simp [forest, tokens]

@[simp] theorem Header.tokens_forest (h : Header) (block : Forest) :
    (h.forest block).tokens = h.tokens ++ block.tokens := by
  cases h <;> simp [forest, tokens]

theorem Header.settled_block {h : Header} {block : Forest} {behind : List Token}
    (settled : (h.forest block).Settled behind) : block.Settled behind := by
  cases h with
  | structured =>
    simp only [forest, Forest.settled_append] at settled
    exact settled.2.2.2.2.2.2
  | loose =>
    simp only [forest, Forest.settled_append] at settled
    exact settled.2.2.2.2

theorem GenericParameter.derives (p : GenericParameter) :
    Derives (.part .genericParam) (.under .genericParam p.forest) :=
  .part (.seq (.ofKind p.name) (.option TypeClause.derives p.constraint))

theorem GenericClause.derives (c : GenericClause) :
    Derives (.part .genericParams) (.under .genericParams c.forest) :=
  .part (.seq (.ofKind c.opening) (.seq (.listed GenericParameter.derives c.parameters)
    (.ofKind c.closing)))

theorem Inheritance.derives (i : Inheritance) :
    Derives (.part .inheritance) (.under .inheritance i.forest) :=
  .part (.seq (.ofKind i.colon) (.listed TypeSyntax.derives i.types))

theorem WhereClause.derives (w : WhereClause) :
    Derives (.part .whereClause) (.under .whereClause w.forest) :=
  .part (.seq (.ofKind w.keyword) (.seq w.first.derives (derives_headerForest w.others)))

theorem Header.derives_structured {head : Head} {keyword : Token} {kind : Kind}
    (is : keyword.kind = kind) {name : Tok .name} {generics : Option GenericClause}
    {inheritance : Option Inheritance} {requirements : Option WhereClause} {block : Forest}
    (inner : Derives (.part .memberBlock) block) :
    Derives (structuredBody kind) (head.forest ++ (.ofToken keyword ++ (.ofToken name.val ++
      (optionForest (fun g => .under .genericParams g.forest) generics ++
      (optionForest (fun i => .under .inheritance i.forest) inheritance ++
      (optionForest (fun w => .under .whereClause w.forest) requirements ++ block)))))) :=
  .seq head.derives (.seq (.word (by simp [is])) (.seq (.ofKind name)
    (.seq (.option GenericClause.derives generics)
      (.seq (.option Inheritance.derives inheritance)
        (.seq (.option WhereClause.derives requirements) inner)))))

theorem Header.derives_loose {head : Head} {keyword : Token} {kind : Kind}
    (is : keyword.kind = kind) {name : Tok .name} {atoms : List HeaderAtom} {block : Forest}
    (inner : Derives (.part .memberBlock) block) :
    Derives (looseBody kind) (head.forest ++ (.ofToken keyword ++ (.ofToken name.val ++
      (headerForest atoms ++ block)))) :=
  .seq head.derives (.seq (.word (by simp [is])) (.seq (.ofKind name)
    (.seq (derives_headerForest atoms) inner)))

/-- A type declaration is an instance of the rule of its keyword. -/
theorem Header.derives (h : Header) {block : Forest}
    (inner : Derives (.part .memberBlock) block) :
    Derives (.part .decl)
      (.under .decl (.under (nominalRule h.keyword.kind) (h.forest block))) := by
  refine .part ?_
  cases h with
  | structured head keyword name generics inheritance requirements =>
    have is := keyword.property
    simp only [Header.keyword, forest]
    cases eq : keyword.val.kind <;> simp only [eq, Kind.isStructuredNominal] at is <;>
      try contradiction
    case structKw => exact .left (.part (derives_structured eq inner))
    case classKw => exact .right (.left (.part (derives_structured eq inner)))
    case enumKw => exact .right (.right (.left (.part (derives_structured eq inner))))
    case actorKw => exact .right (.right (.right (.left (.part (derives_structured eq inner)))))
  | loose head keyword name atoms =>
    have is := keyword.property
    simp only [Header.keyword, forest]
    cases eq : keyword.val.kind <;> simp only [eq, Kind.isLooseNominal] at is <;>
      try contradiction
    case protocolKw =>
      exact .right (.right (.right (.right (.left (.part (derives_loose eq inner))))))
    case extensionKw =>
      exact .right (.right (.right (.right (.right (.left (.part (derives_loose eq inner)))))))

/-! ## Properties -/

namespace PatternTree

/-- The trees of a part of a pattern: below its rule for a whole pattern. -/
def forest : {p : PatternPart} → PatternTree p → Forest
  | _, name word => .under .ident (.ofToken word.val)
  | _, tuple opening elements closing =>
    .ofToken opening.val ++ (elements.forest ++ .ofToken closing.val)
  | _, none => .nil
  | _, some first others => .under .bindingPattern first.forest ++ others.forest
  | _, last => .nil
  | _, more comma pattern others =>
    .ofToken comma.val ++ .under .bindingPattern pattern.forest ++ others.forest

/-- What the trees of a part are an instance of. -/
def body : PatternPart → Body
  | .whole => Rule.bindingPattern.body
  | .elements => .optional (.listed (.part .bindingPattern))
  | .more => .many (.seq (.word [.comma]) (.part .bindingPattern))

@[simp] theorem tokens_forest {p : PatternPart} (t : PatternTree p) :
    t.forest.tokens = t.tokens := by
  induction t with
  | _ => simp_all [forest, tokens]

theorem derives {p : PatternPart} (t : PatternTree p) : Derives (body p) t.forest := by
  induction t with
  | name word => exact .left (.part (.word (mem_identifierWords.mpr word.property)))
  | tuple opening elements closing ih =>
    exact .right (.seq (.ofKind opening) (.seq ih (.ofKind closing)))
  | none => exact .missing
  | some first others ihFirst ihOthers => exact .present (.seq (.part ihFirst) ihOthers)
  | last => exact .none
  | more comma pattern others ihPattern ihOthers =>
    exact .more (.seq (.ofKind comma) (.part ihPattern)) ihOthers

end PatternTree

namespace Binding

/-- The trees below the rule of a binding. -/
def forest : Binding → Forest
  | plain pattern clause initializer observers =>
    .under .bindingPattern pattern.forest ++
      (optionForest (fun c => .under .typeClause c.forest) clause ++
      (optionForest (fun i => .under .initializer i.forest) initializer ++
      optionForest (fun g => .under .observerBlock g.forest) observers))
  | computed pattern clause accessors =>
    .under .bindingPattern pattern.forest ++
      (optionForest (fun c => .under .typeClause c.forest) clause ++
      .under .accessorBlock accessors.forest)

@[simp] theorem tokens_forest (b : Binding) : b.forest.tokens = b.tokens := by
  cases b <;> simp [forest, tokens]

theorem derives (b : Binding) :
    Derives (.part .patternBinding) (.under .patternBinding b.forest) := by
  refine .part ?_
  cases b with
  | plain pattern clause initializer observers =>
    exact .left (.seq (.part (PatternTree.derives pattern))
      (.seq (.option (fun c => .part c.derives) clause)
        (.seq (.option (fun i => .part i.derives) initializer)
          (.option (fun g => .part g.derives) observers))))
  | computed pattern clause accessors =>
    exact .right (.seq (.part (PatternTree.derives pattern))
      (.seq (.option (fun c => .part c.derives) clause) (.part accessors.derives)))

end Binding

namespace Property

/-- The trees below the rule of a property declaration. -/
def forest (p : Property) : Forest :=
  p.head.forest ++ (optionForest (fun w => .ofToken w.val) p.classWord ++
    (.under .bindingKw (.ofToken p.binder.val) ++
      p.bindings.forest fun b => .under .patternBinding b.forest))

@[simp] theorem tokens_forest (p : Property) : p.forest.tokens = p.tokens := by
  simp [forest, tokens]

theorem derives (p : Property) : Derives Rule.varDecl.body p.forest := by
  have binder : Derives (.part .bindingKw) (.under .bindingKw (.ofToken p.binder.val)) := by
    have mem : ∀ k : Kind, k.isBinder = true → k ∈ [Kind.letKw, .varKw] := by decide
    exact .part (.word (mem _ p.binder.property))
  exact .seq p.head.derives (.seq (.option .ofKind p.classWord)
    (.seq binder (.listed Binding.derives p.bindings)))

end Property

/-! ## Cases -/

namespace SlotSyntax

/-- The trees below the rule of a slot. -/
def forest : SlotSyntax → Forest
  | labelled label colon type default =>
    .under .ident (.ofToken label.val) ++ (.ofToken colon.val ++ (.under .type type.forest ++
      optionForest (fun i => .under .payloadDefault i.forest) default))
  | positional type default =>
    .under .type type.forest ++ optionForest (fun i => .under .payloadDefault i.forest) default

@[simp] theorem tokens_forest (s : SlotSyntax) : s.forest.tokens = s.tokens := by
  cases s <;> simp [forest, tokens]

theorem derives (s : SlotSyntax) :
    Derives (.part .payloadElem) (.under .payloadElem s.forest) := by
  refine .part ?_
  cases s with
  | labelled label colon type default =>
    exact .left (.seq (.part (.word (mem_identifierWords.mpr label.property)))
      (.seq (.ofKind colon) (.seq (TypeSyntax.derives type)
        (.option (fun i => .part i.derives) default))))
  | positional type default =>
    exact .right (.seq (TypeSyntax.derives type) (.option (fun i => .part i.derives) default))

end SlotSyntax

namespace PayloadSyntax

/-- The trees below the rule of a payload. -/
def forest (p : PayloadSyntax) : Forest :=
  .ofToken p.opening.val ++
    (optionForest (Listed.forest fun s => .under .payloadElem s.forest) p.slots ++
      .ofToken p.closing.val)

@[simp] theorem tokens_forest (p : PayloadSyntax) : p.forest.tokens = p.tokens := by
  simp [forest, tokens]

theorem derives (p : PayloadSyntax) :
    Derives (.part .casePayload) (.under .casePayload p.forest) :=
  .part (.seq (.ofKind p.opening)
    (.seq (.option (.listed SlotSyntax.derives) p.slots) (.ofKind p.closing)))

end PayloadSyntax

namespace CaseSyntax

/-- The trees below the rule of a case. -/
def forest (c : CaseSyntax) : Forest :=
  .under .ident (.ofToken c.name.val) ++
    (optionForest (fun p => .under .casePayload p.forest) c.payload ++
      optionForest (fun i => .under .rawValue i.forest) c.raw)

@[simp] theorem tokens_forest (c : CaseSyntax) : c.forest.tokens = c.tokens := by
  simp [forest, tokens]

theorem derives (c : CaseSyntax) : Derives (.part .enumCase) (.under .enumCase c.forest) :=
  .part (.seq (.part (.word (mem_identifierWords.mpr c.name.property)))
    (.seq (.option PayloadSyntax.derives c.payload)
      (.option (fun i => .part i.derives) c.raw)))

end CaseSyntax

namespace CaseGroup

/-- The trees below the rule of a case declaration. -/
def forest (c : CaseGroup) : Forest :=
  c.head.forest ++ (.ofToken c.keyword.val ++
    c.cases.forest fun s => .under .enumCase s.forest)

@[simp] theorem tokens_forest (c : CaseGroup) : c.forest.tokens = c.tokens := by
  simp [forest, tokens]

theorem derives (c : CaseGroup) : Derives Rule.caseDecl.body c.forest :=
  .seq c.head.derives (.seq (.ofKind c.keyword) (.listed CaseSyntax.derives c.cases))

end CaseGroup

/-! ## Leaves -/

/-- The trees below the rule of a function's name. -/
def functionNameForest (name : Word Kind.isFunctionName) : Forest :=
  if name.val.kind.isIdentifier then .under .ident (.ofToken name.val) else .ofToken name.val

@[simp] theorem tokens_functionNameForest (name : Word Kind.isFunctionName) :
    (functionNameForest name).tokens = [name.val] := by
  unfold functionNameForest
  split <;> simp

theorem derives_functionNameForest (name : Word Kind.isFunctionName) :
    Derives (.part .funcName) (.under .funcName (functionNameForest name)) := by
  refine .part ?_
  unfold functionNameForest
  split
  next identifier => exact .left (.part (.word (mem_identifierWords.mpr identifier)))
  next other =>
    have mem : ∀ k : Kind, k.isFunctionName = true → ¬k.isIdentifier = true →
        k ∈ [Kind.operator, .leftAngle, .rightAngle, .equal, .bang, .question, .ampersand] := by
      decide
    exact .right (.word (mem _ name.property other))

namespace Leaf

/-- The trees of an import path. -/
def pathForest (path : List (Tok .dot × Word Kind.isIdentifier)) : Forest :=
  .concat (path.map fun (dot, word) => .ofToken dot.val ++ .under .ident (.ofToken word.val))

/-- The tree of a body, if there is one. -/
def bodyForest (body : Option (Group .brace)) : Forest :=
  optionForest (fun g => .under .braceGroup g.forest) body

/-- The rule of a leaf. -/
def rule : Leaf → Rule
  | directive _ => .compilerControl
  | property _ => .varDecl
  | cases _ => .caseDecl
  | function .. => .funcDecl
  | constructor .. => .initDecl
  | destructor .. => .deinitDecl
  | subscript .. => .subscriptDecl
  | typeAlias .. => .typealiasDecl
  | importing .. => .importDecl

theorem rule_ne_exprAtom (l : Leaf) : l.rule ≠ .exprAtom := by
  cases l <;> simp [rule]

/-- The trees below the rule of a leaf. -/
def forest : Leaf → Forest
  | directive line => .ofToken line.val
  | property p => p.forest
  | cases c => c.forest
  | function head classWord keyword name signature body =>
    head.forest ++ (optionForest (fun w => .ofToken w.val) classWord ++
      (.ofToken keyword.val ++ (.under .funcName (functionNameForest name) ++
        (Signature.forest signature ++ bodyForest body))))
  | constructor head keyword signature body =>
    head.forest ++ (.ofToken keyword.val ++ (Signature.forest signature ++ bodyForest body))
  | destructor head keyword body => head.forest ++ (.ofToken keyword.val ++ bodyForest body)
  | subscript head keyword signature body =>
    head.forest ++ (.ofToken keyword.val ++ (Signature.forest signature ++ bodyForest body))
  | typeAlias head keyword name signature =>
    head.forest ++ (.ofToken keyword.val ++ (.ofToken name.val ++ Signature.forest signature))
  | importing head keyword what name path =>
    head.forest ++ (.ofToken keyword.val ++
      (optionForest (fun w => .under .importKind (.ofToken w.val)) what ++
        (.ofToken name.val ++ pathForest path)))

@[simp] theorem tokens_pathForest (path : List (Tok .dot × Word Kind.isIdentifier)) :
    (pathForest path).tokens = pathTokens path := by
  simp [pathForest, pathTokens, List.flatMap_map]

@[simp] theorem tokens_bodyForest (body : Option (Group .brace)) :
    (bodyForest body).tokens = optionTokens Group.tokens body := by
  simp [bodyForest]

@[simp] theorem tokens_forest (l : Leaf) : l.forest.tokens = l.tokens := by
  cases l <;> simp [forest, tokens]

theorem derives_path (path : List (Tok .dot × Word Kind.isIdentifier)) :
    Derives (.many (.all (.word [.dot]) [.part .ident])) (pathForest path) :=
  .concat fun (dot, word) _ =>
    .seq (.ofKind dot) (.part (.word (mem_identifierWords.mpr word.property)))

theorem derives_body (body : Option (Group .brace)) :
    Derives (.optional (.part .braceGroup)) (bodyForest body) :=
  .option (fun g => g.derives_rule) body

theorem derives_importKind (what : Option (Word Kind.isImportWord)) :
    Derives (.optional (.part .importKind))
      (optionForest (fun w => .under .importKind (.ofToken w.val)) what) := by
  have mem : ∀ k : Kind, k.isImportWord = true → k ∈ [Kind.structKw, .classKw, .enumKw,
      .protocolKw, .funcKw, .varKw, .letKw, .typealiasKw] := by
    decide
  have each (w : Word Kind.isImportWord) :
      Derives (.part .importKind) (.under .importKind (.ofToken w.val)) :=
    .part (.word (mem _ w.property))
  exact .option each what

theorem derives_alias (head : Head) (keyword : Word Kind.isAliasWord) (name : Tok .name)
    (signature : Signature) :
    Derives Rule.typealiasDecl.body (head.forest ++ (.ofToken keyword.val ++
      (.ofToken name.val ++ Signature.forest signature))) := by
  have words : ∀ k : Kind, k.isAliasWord = true → k = .typealiasKw ∨ k = .associatedtypeKw := by
    decide
  have behind (kind : Kind) (eq : keyword.val.kind = kind) :
      Derives (.all (.part .declHead) [.word [kind], .word [.name], .many (.part .sigAtom)])
        (head.forest ++ (.ofToken keyword.val ++
          (.ofToken name.val ++ Signature.forest signature))) :=
    .seq head.derives (.seq (.word (by simp [eq]))
      (.seq (.ofKind name) (Signature.derives signature)))
  rcases words _ keyword.property with eq | eq
  · exact .left (behind _ eq)
  · exact .right (behind _ eq)

theorem derives_below (l : Leaf) : Derives l.rule.body l.forest := by
  cases l with
  | directive line => exact .ofKind line
  | property p => exact p.derives
  | cases c => exact c.derives
  | function head classWord keyword name signature body =>
    exact .seq head.derives (.seq (.option .ofKind classWord) (.seq (.ofKind keyword)
      (.seq (derives_functionNameForest name)
        (.seq (Signature.derives signature) (derives_body body)))))
  | constructor head keyword signature body =>
    exact .seq head.derives (.seq (.ofKind keyword)
      (.seq (Signature.derives signature) (derives_body body)))
  | destructor head keyword body =>
    exact .seq head.derives (.seq (.ofKind keyword) (derives_body body))
  | subscript head keyword signature body =>
    exact .seq head.derives (.seq (.ofKind keyword)
      (.seq (Signature.derives signature) (derives_body body)))
  | typeAlias head keyword name signature => exact derives_alias head keyword name signature
  | importing head keyword what name path =>
    exact .seq head.derives (.seq (.ofKind keyword) (.seq (derives_importKind what)
      (.seq (.ofKind name) (derives_path path))))

/-- A leaf is a declaration. -/
theorem derives (l : Leaf) : Derives (.part .decl) (.under .decl (.under l.rule l.forest)) := by
  have below := Derives.part l.derives_below
  refine .part ?_
  -- The rules of leaves stand behind the six of type declarations.
  refine .right (.right (.right (.right (.right (.right ?_)))))
  cases l with
  | property => exact .left below
  | cases => exact .right (.left below)
  | function => exact .right (.right (.left below))
  | constructor => exact .right (.right (.right (.left below)))
  | destructor => exact .right (.right (.right (.right (.left below))))
  | subscript => exact .right (.right (.right (.right (.right (.left below)))))
  | typeAlias => exact .right (.right (.right (.right (.right (.right (.left below))))))
  | importing =>
    exact .right (.right (.right (.right (.right (.right (.right (.left below)))))))
  | directive =>
    exact .right (.right (.right (.right (.right (.right (.right (.right below)))))))

end Leaf

/-! ## Rows -/

namespace Items

/-- The trees of a row. -/
def forest : Items → Forest
  | nil => .nil
  | semicolon mark rest => .node .item (.ofToken mark.val) rest.forest
  | leaf l rest => .node .item (.under .decl (.under l.rule l.forest)) rest.forest
  | nominal header opening members closing rest =>
    .node .item (.under .decl (.under (nominalRule header.keyword.kind)
      (header.forest (.under .memberBlock
        (.ofToken opening.val ++ (members.forest ++ .ofToken closing.val)))))) rest.forest

/-- One row behind another. -/
protected def append : Items → Items → Items
  | nil, j => j
  | semicolon mark rest, j => semicolon mark (rest.append j)
  | leaf l rest, j => leaf l (rest.append j)
  | nominal header opening members closing rest, j =>
    nominal header opening members closing (rest.append j)

instance : Append Items := ⟨Items.append⟩

@[simp] theorem forest_append (i j : Items) : (i ++ j).forest = i.forest ++ j.forest := by
  induction i with
  | nil => rfl
  | semicolon mark rest ih => exact congrArg (Forest.node _ _) ih
  | leaf l rest ih => exact congrArg (Forest.node _ _) ih
  | nominal header opening members closing rest _ ih => exact congrArg (Forest.node _ _) ih

/-- The tree of a whole source. -/
def derivation (i : Items) : Forest := .under .start i.forest

@[simp] theorem tokens_forest (i : Items) : i.forest.tokens = i.tokens := by
  induction i with
  | nil => rfl
  | semicolon mark rest ih => simp [forest, tokens, ih]
  | leaf l rest ih => simp [forest, tokens, ih]
  | nominal header opening members closing rest ihMembers ihRest =>
    simp [forest, tokens, ihMembers, ihRest]

theorem derives (i : Items) : Derives (.many (.part .item)) i.forest := by
  induction i with
  | nil => exact .none
  | semicolon mark rest ih =>
    have first : Derives (.part .item) (.under .item (.ofToken mark.val)) :=
      .part (.right (.ofKind mark))
    exact .more first ih
  | leaf l rest ih =>
    have first : Derives (.part .item) (.under .item (.under .decl (.under l.rule l.forest))) :=
      .part (.left l.derives)
    exact .more first ih
  | nominal header opening members closing rest ihMembers ihRest =>
    have block : Derives (.part .memberBlock) (.under .memberBlock
        (.ofToken opening.val ++ (members.forest ++ .ofToken closing.val))) :=
      .part (.seq (.ofKind opening) (.seq ihMembers (.ofKind closing)))
    have first : Derives (.part .item) (.under .item (.under .decl
        (.under (nominalRule header.keyword.kind) (header.forest (.under .memberBlock
          (.ofToken opening.val ++ (members.forest ++ .ofToken closing.val))))))) :=
      .part (.left (header.derives block))
    exact .more first ihRest

theorem derives_derivation (i : Items) : Derives (.part .start) i.derivation := .part i.derives

end Items

end Conformance.Grammar
