import Conformance.Declaration.OfSyntax
import Conformance.Proofs.Grammar.ItemDerivation

/-!
# Outlines

The outline of a source: its declarations in order, each type with its members,
each property with its bindings and each case declaration with its cases and their
slots.

An outline can be read off a derivation, rule by rule, and off the declarations
that are built from a source.  For a row of declarations the two agree.
-/

namespace Conformance

/-- A declaration as far as its parts are concerned. -/
inductive Outline where
  /-- A property with its bindings. -/
  | property (keyword : String) (bindings : List Variable)
  /-- Cases with their slots. -/
  | cases (elements : List CaseElement)
  /-- A type with its members. -/
  | nominal (kind : NominalKind) (name : String) (members : List Outline)
  /-- A declaration without state. -/
  | stateless (keyword : String) (name : Option String)
  /-- A line of compiler control. -/
  | directive (text : String)

/-! ## Of declarations -/

mutual

/-- The outline of a member. -/
def Member.outline : Member → Outline
  | property p => .property p.keyword p.bindings
  | cases c => .cases c.elements
  | nominal head members => .nominal head.kind head.name (Member.outlines members)
  | stateless d => .stateless d.keyword d.name
  | directive d => .directive d.text

/-- The outlines of members. -/
def Member.outlines : List Member → List Outline
  | [] => []
  | m :: ms => m.outline :: Member.outlines ms

end

/-- The outline of a declaration. -/
def Declaration.outline : Declaration → Outline
  | nominal n => .nominal n.head.kind n.head.name (Member.outlines n.members)
  | stateless d => .stateless d.keyword d.name
  | directive d => .directive d.text

/-- The outline of a source. -/
def SourceFile.outline (s : SourceFile) : List Outline := s.declarations.map Declaration.outline

/-- What is left of an outline outside of any type, where properties and cases hold no state. -/
def Outline.outside : Outline → Outline
  | property keyword bindings => .stateless keyword (bindings.head?.bind Variable.name)
  | cases elements => .stateless "case" (elements.head?.map CaseElement.name)
  | o => o

namespace Grammar

/-! ## Of derivations -/

namespace Forest

/-- What stands below the rules of one name in a row. -/
def parts (r : Rule) : Forest → List Forest
  | nil => []
  | leaf _ rest => rest.parts r
  | node r' below rest => if r' = r then below :: rest.parts r else rest.parts r

/-- The tokens in a row that stand below no rule. -/
def words : Forest → List Token
  | nil => []
  | leaf t rest => t :: rest.words
  | node _ _ rest => rest.words

/-- The text of the identifier in a row. -/
def identifier? (f : Forest) : Option String :=
  ((f.parts .ident).flatMap tokens).head?.map Token.text

/-- The type in a row, with its blanks collapsed. -/
def typeText? (f : Forest) : Option String :=
  (f.parts .type).head?.map fun t => Text.squash (Token.stretch t.tokens)

/-- The expression behind an equals sign, below a rule in a row. -/
def valueText? (r : Rule) (f : Forest) : Option String :=
  ((f.parts r).flatMap (·.parts .expr)).head?.map fun e => Token.stretch e.tokens

/-- The variable of a binding.  The pattern of a tuple has no identifier of its own. -/
def boundVariable (binding : Forest) : Variable where
  name := ((binding.parts .bindingPattern).head?).bind identifier?
  type := ((binding.parts .typeClause).head?).bind typeText?
  value := binding.valueText? .initializer

/-- The slot of a payload.  An underscore is no label. -/
def slot (elem : Forest) : PayloadElement where
  label := elem.identifier?.filter (· != "_")
  type := elem.typeText?.getD ""
  default := elem.valueText? .payloadDefault

/-- A case. -/
def caseElement (c : Forest) : CaseElement where
  name := c.identifier?.getD ""
  payload := (c.parts .casePayload).head?.map fun p => (p.parts .payloadElem).map slot
  raw := c.valueText? .rawValue

/-- The kind of type that a rule declares. -/
def nominalKind? : Rule → Option NominalKind
  | .structDecl => some .structKind
  | .classDecl => some .classKind
  | .enumDecl => some .enumKind
  | .actorDecl => some .actorKind
  | .protocolDecl => some .protocolKind
  | .extensionDecl => some .extensionKind
  | _ => none

/-- The further parts of an extended type's name: names behind dots at the front of a row. -/
def nameParts : Forest → List String
  | node .headerAtom (leaf dot nil) (node .headerAtom (leaf name nil) rest) =>
    if dot.kind == .dot && name.kind == .name then name.text :: rest.nameParts else []
  | _ => []

/-- What stands behind the name of a type. -/
def behindName : Forest → Forest
  | nil => nil
  | leaf t rest => if t.kind == .name then rest else rest.behindName
  | node _ _ rest => rest.behindName

/-- The first name that stands below no rule. -/
def declaredName (decl : Forest) : String :=
  (decl.words.find? (·.kind == .name)).elim "" Token.text

/-- The first word that stands below no rule. -/
def keyword (decl : Forest) : String := decl.words.head?.elim "" Token.text

/-- The name of a type, of an extension with the outer types and dots. -/
def nominalName (kind : NominalKind) (decl : Forest) : String :=
  match kind with
  | .extensionKind => ".".intercalate (decl.declaredName :: decl.behindName.nameParts)
  | _ => decl.declaredName

/-- The text of all that stands below the rules of one name in a row. -/
def partText (r : Rule) (decl : Forest) : String :=
  String.join (((decl.parts r).flatMap tokens).map Token.text)

/-- The outline of what a rule declares, if it declares no type. -/
def leafOutline? (r : Rule) (decl : Forest) : Option Outline :=
  match r with
  | .varDecl => some (.property (decl.partText .bindingKw)
      ((decl.parts .patternBinding).map boundVariable))
  | .caseDecl => some (.cases ((decl.parts .enumCase).map caseElement))
  | .funcDecl => some (.stateless "func" (some (decl.partText .funcName)))
  | .initDecl | .deinitDecl | .subscriptDecl => some (.stateless decl.keyword none)
  | .typealiasDecl => some (.stateless decl.keyword (some decl.declaredName))
  | .importDecl => some (.stateless "import" (some
      (String.join (decl.declaredName :: decl.behindName.tokens.map Token.text))))
  | .compilerControl => some (.directive (Text.trim decl.keyword))
  | _ => none

/-- The outlines of the declarations in a row, in order. -/
def outlines : Forest → List Outline
  | nil => []
  | leaf _ rest => rest.outlines
  | node r below rest =>
    match nominalKind? r with
    | some kind => .nominal kind (below.nominalName kind) below.outlines :: rest.outlines
    | none =>
      match below.leafOutline? r with
      | some o => o :: rest.outlines
      | none =>
        if r ∈ [Rule.start, .item, .decl, .memberBlock] then below.outlines ++ rest.outlines
        else rest.outlines

/-! ## Equations -/

section
variable {r : Rule} {f g : Forest}

@[simp] theorem parts_nil : nil.parts r = [] := rfl

@[simp] theorem parts_ofToken (t : Token) : (ofToken t).parts r = [] := rfl

@[simp] theorem parts_under (r' : Rule) :
    (under r' f).parts r = if r' = r then [f] else [] := by
  simp [under, parts]

@[simp] theorem parts_append : (f ++ g).parts r = f.parts r ++ g.parts r := by
  induction f with
  | nil => rfl
  | leaf t rest ih => simpa [parts] using ih
  | node r' below rest _ ih =>
    simp only [node_append, parts, ih]
    split <;> simp

@[simp] theorem parts_concat (fs : List Forest) :
    (concat fs).parts r = fs.flatMap (parts r) := by
  induction fs with
  | nil => rfl
  | cons f fs ih => simp [ih]

@[simp] theorem parts_optionForest {α : Type} (tree : α → Forest) (o : Option α) :
    (optionForest tree o).parts r = o.elim [] fun a => (tree a).parts r := by
  cases o <;> rfl

@[simp] theorem words_nil : nil.words = [] := rfl

@[simp] theorem words_ofToken (t : Token) : (ofToken t).words = [t] := rfl

@[simp] theorem words_under : (under r f).words = [] := rfl

@[simp] theorem words_append : (f ++ g).words = f.words ++ g.words := by
  induction f with
  | nil => rfl
  | leaf t rest ih => simpa [words] using ih
  | node r below rest _ ih => simpa [words] using ih

@[simp] theorem outlines_nil : nil.outlines = [] := rfl

@[simp] theorem outlines_ofToken (t : Token) : (ofToken t).outlines = [] := rfl

@[simp] theorem outlines_append : (f ++ g).outlines = f.outlines ++ g.outlines := by
  induction f with
  | nil => rfl
  | leaf t rest ih => simpa [outlines] using ih
  | node r below rest _ ih =>
    simp only [node_append, outlines, ih]
    split
    · simp
    · split
      · simp
      · split <;> simp

end

end Forest

/-! ## Properties -/

theorem PatternTree.parts_ident {p : PatternPart} (t : PatternTree p) (h : p ≠ .whole) :
    t.forest.parts .ident = [] := by
  induction t with
  | name => exact absurd rfl h
  | tuple => exact absurd rfl h
  | none => rfl
  | some first others _ ih => simp [forest, ih (by decide)]
  | last => rfl
  | more comma pattern others _ ih => simp [forest, ih (by decide)]

theorem BindingPattern.identifier?_forest (t : BindingPattern) :
    t.forest.identifier? = t.name? := by
  cases t with
  | name word => rfl
  | tuple opening elements closing =>
    simp [PatternTree.forest, Forest.identifier?, BindingPattern.name?,
      PatternTree.parts_ident elements (by decide)]

theorem TypeClause.typeText?_forest (c : TypeClause) : c.forest.typeText? = some c.type.text := by
  simp [forest, Forest.typeText?, TypeSyntax.text]

theorem Forest.valueText?_eq {r : Rule} {f : Forest} {o : Option Initializer}
    (h : f.parts r = o.elim [] fun i => [i.forest]) : f.valueText? r = o.map (·.value.text) := by
  rw [valueText?, h]
  cases o with
  | none => rfl
  | some i => simp [Initializer.forest, Expression.text]

theorem Binding.boundVariable_forest (b : Binding) : b.forest.boundVariable = b.declared := by
  cases b with
  | plain pattern clause initializer observers =>
    have name := BindingPattern.identifier?_forest pattern
    have value : (plain pattern clause initializer observers).forest.valueText? .initializer =
        initializer.map (·.value.text) := by
      refine Forest.valueText?_eq ?_
      cases initializer <;> cases clause <;> cases observers <;> simp [forest]
    rw [Forest.boundVariable, value]
    cases clause with
    | none => cases initializer <;> cases observers <;> simp [forest, declared, name]
    | some c =>
      cases initializer <;> cases observers <;>
        simp [forest, declared, name, c.typeText?_forest]
  | computed pattern clause accessors =>
    have name := BindingPattern.identifier?_forest pattern
    have value : (computed pattern clause accessors).forest.valueText? .initializer = none := by
      refine Forest.valueText?_eq (o := none) ?_
      cases clause <;> simp [forest]
    rw [Forest.boundVariable, value]
    cases clause with
    | none => simp [forest, declared, name]
    | some c => simp [forest, declared, name, c.typeText?_forest]

/-- The trees of one rule among phrases with commas between them are those of the phrases. -/
theorem Listed.parts_forest {α : Type} (tree : α → Forest) (r : Rule) (l : Listed α) :
    (l.forest fun a => .under r (tree a)).parts r = l.toList.map tree := by
  obtain ⟨first, others⟩ := l
  have behind : (Forest.concat (others.map fun x => .ofToken x.1.val ++ .under r (tree x.2))).parts
      r = others.map fun x => tree x.2 := by
    induction others with
    | nil => rfl
    | cons x xs ih => simpa using ih
  rw [Listed.forest, Forest.parts_append, behind]
  simp [Listed.toList]

theorem Listed.parts_forest_ne {α : Type} (tree : α → Forest) {r r' : Rule} (h : r ≠ r')
    (l : Listed α) : (l.forest fun a => .under r (tree a)).parts r' = [] := by
  obtain ⟨first, others⟩ := l
  have behind : (Forest.concat (others.map fun x => .ofToken x.1.val ++ .under r (tree x.2))).parts
      r' = [] := by
    induction others with
    | nil => rfl
    | cons x xs ih => simpa [h] using ih
  rw [Listed.forest, Forest.parts_append, behind]
  simp [h]

theorem Property.parts_forest (p : Property) :
    p.forest.parts .patternBinding = p.bindings.toList.map Binding.forest := by
  have word : (optionForest (fun w => .ofToken w.val) p.classWord : Forest).parts
      .patternBinding = [] := by cases p.classWord <;> rfl
  simp [forest, Head.forest, word, Listed.parts_forest]

/-! ## Cases -/

theorem labelOf_eq {p : Kind → Bool} (w : Word p) :
    (some w.text).filter (· != "_") = labelOf w := by
  simp only [labelOf, Option.filter_some]
  split <;> split <;> simp_all

theorem SlotSyntax.slot_forest (s : SlotSyntax) : s.forest.slot = s.element := by
  have value : s.forest.valueText? .payloadDefault = s.element.default := by
    cases s with
    | labelled label colon type default =>
      exact Forest.valueText?_eq (by cases default <;> simp [forest])
    | positional type default =>
      exact Forest.valueText?_eq (by cases default <;> simp [forest])
  have label : s.forest.identifier?.filter (· != "_") = s.element.label := by
    cases s with
    | labelled label colon type default =>
      have word : (labelled label colon type default).forest.identifier? = some label.text := by
        cases default <;> simp [forest, Forest.identifier?, Word.text]
      rw [word]
      exact labelOf_eq label
    | positional type default =>
      have none : (positional type default).forest.identifier? = none := by
        cases default <;> simp [forest, Forest.identifier?]
      rw [none]
      rfl
  have type : s.forest.typeText?.getD "" = s.element.type := by
    cases s with
    | labelled label colon type default =>
      cases default <;> simp [forest, Forest.typeText?, element, TypeSyntax.text]
    | positional type default =>
      cases default <;> simp [forest, Forest.typeText?, element, TypeSyntax.text]
  rw [Forest.slot, label, type, value]

theorem PayloadSyntax.parts_forest (p : PayloadSyntax) :
    p.forest.parts .payloadElem = p.toList.map SlotSyntax.forest := by
  obtain ⟨opening, slots, closing⟩ := p
  cases slots with
  | none => simp [forest, toList]
  | some l => simp [forest, toList, Listed.parts_forest]

theorem PayloadSyntax.slots_forest (p : PayloadSyntax) :
    (p.forest.parts .payloadElem).map Forest.slot = p.toList.map SlotSyntax.element := by
  rw [p.parts_forest, List.map_map]
  exact List.map_congr_left fun s _ => s.slot_forest

theorem CaseSyntax.caseElement_forest (c : CaseSyntax) : c.forest.caseElement = c.element := by
  have raw : c.forest.valueText? .rawValue = c.raw.map (·.value.text) :=
    Forest.valueText?_eq (by cases h : c.payload <;> cases h' : c.raw <;> simp [forest, h, h'])
  have name : c.forest.identifier? = some c.name.text := by
    cases h : c.payload <;> cases h' : c.raw <;>
      simp [forest, Forest.identifier?, Word.text, h, h']
  have payload : (c.forest.parts .casePayload).head? = c.payload.map PayloadSyntax.forest := by
    cases h : c.payload <;> cases h' : c.raw <;> simp [forest, h, h']
  rw [Forest.caseElement, raw, name, payload, Option.map_map]
  simp only [element, Option.getD_some, Function.comp_def, PayloadSyntax.slots_forest]

theorem CaseGroup.parts_forest (c : CaseGroup) :
    c.forest.parts .enumCase = c.cases.toList.map CaseSyntax.forest := by
  simp [forest, Head.forest, Listed.parts_forest]

/-! ## Leaves -/

theorem Forest.words_optionForest {α : Type} {r : Rule} {tree : α → Forest} (o : Option α) :
    (optionForest (fun a => under r (tree a)) o).words = [] := by
  cases o <;> rfl

theorem Forest.words_concat {α : Type} {r : Rule} {tree : α → Forest} (as : List α) :
    (concat (as.map fun a => under r (tree a))).words = [] := by
  induction as with
  | nil => rfl
  | cons a as ih => simpa using ih

theorem Forest.behindName_ofToken_append {t : Token} (f : Forest) (h : t.kind ≠ .name) :
    (ofToken t ++ f).behindName = f.behindName := by
  simp [ofToken, behindName, h]

theorem Forest.behindName_name (w : Tok .name) (f : Forest) :
    (ofToken w.val ++ f).behindName = f := by
  simp [ofToken, behindName, w.kind_eq]

theorem Forest.behindName_under (r : Rule) (f g : Forest) :
    (under r f ++ g).behindName = g.behindName := rfl

namespace Leaf

@[simp] theorem words_head (head : Head) : head.forest.words = [] := rfl

theorem words_signature (s : Signature) : (Signature.forest s).words = [] :=
  Forest.words_concat s

theorem words_body (body : Option (Group .brace)) : (bodyForest body).words = [] :=
  Forest.words_optionForest body

theorem parts_signature {r : Rule} (h : .sigAtom ≠ r) (s : Signature) :
    (Signature.forest s).parts r = [] := by
  induction s with
  | nil => rfl
  | cons a s ih => simp [Signature.forest, h]

theorem leafOutline_property (p : Property) :
    p.forest.leafOutline? .varDecl = some (property p).member.outline := by
  have bindings : (p.forest.parts .patternBinding).map Forest.boundVariable =
      p.bindings.toList.map Binding.declared := by
    rw [p.parts_forest, List.map_map]
    exact List.map_congr_left fun b _ => b.boundVariable_forest
  have binder : p.forest.partText .bindingKw = p.binder.text := by
    have none : (p.bindings.forest fun b => .under .patternBinding b.forest).parts .bindingKw =
        [] := Listed.parts_forest_ne Binding.forest (by decide) p.bindings
    cases word : p.classWord <;>
      simp [Property.forest, Head.forest, Forest.partText, word, none, Word.text, String.join]
  simp only [Forest.leafOutline?, bindings, binder]
  rfl

theorem leafOutline_cases (c : CaseGroup) :
    c.forest.leafOutline? .caseDecl = some (cases c).member.outline := by
  have elements : (c.forest.parts .enumCase).map Forest.caseElement =
      c.cases.toList.map CaseSyntax.element := by
    rw [c.parts_forest, List.map_map]
    exact List.map_congr_left fun s _ => s.caseElement_forest
  simp only [Forest.leafOutline?, elements]
  rfl

theorem leafOutline_function (head : Head) (classWord : Option (Tok .classKw))
    (keyword : Tok .funcKw) (name : Word Kind.isFunctionName) (signature : Signature)
    (body : Option (Group .brace)) :
    (function head classWord keyword name signature body).forest.leafOutline? .funcDecl =
      some (function head classWord keyword name signature body).member.outline := by
  have text : (function head classWord keyword name signature body).forest.partText .funcName =
      name.text := by
    have none := parts_signature (r := .funcName) (by decide) signature
    cases classWord <;> cases body <;>
      simp [forest, bodyForest, Head.forest, Forest.partText, none, Word.text, String.join]
  simp only [Forest.leafOutline?, text]
  rfl

theorem leafOutline_alias (head : Head) (keyword : Word Kind.isAliasWord) (name : Tok .name)
    (signature : Signature) :
    (typeAlias head keyword name signature).forest.leafOutline? .typealiasDecl =
      some (typeAlias head keyword name signature).member.outline := by
  have notName : ∀ k : Kind, k.isAliasWord = true → k ≠ .name := by decide
  have words : (typeAlias head keyword name signature).forest.words =
      [keyword.val, name.val] := by
    simp [forest, words_signature]
  simp [Forest.leafOutline?, Forest.keyword, Forest.declaredName, words,
    notName _ keyword.property, name.kind_eq]
  rfl

theorem leafOutline_import (head : Head) (keyword : Tok .importKw)
    (what : Option (Word Kind.isImportWord)) (name : Tok .name)
    (path : List (Tok .dot × Word Kind.isIdentifier)) :
    (importing head keyword what name path).forest.leafOutline? .importDecl =
      some (importing head keyword what name path).member.outline := by
  have declared : (importing head keyword what name path).forest.declaredName = name.text := by
    have none : (optionForest (fun w => .under .importKind (.ofToken w.val)) what).words = [] :=
      Forest.words_optionForest what
    simp [forest, Forest.declaredName, keyword.kind_eq, name.kind_eq, Word.text, none]
  have behind : (importing head keyword what name path).forest.behindName = pathForest path := by
    rw [forest, Head.forest, Forest.behindName_under,
      Forest.behindName_ofToken_append _ (by simp [keyword.kind_eq])]
    cases what with
    | none => exact Forest.behindName_name name _
    | some w => exact (Forest.behindName_under ..).trans (Forest.behindName_name name _)
  simp only [Forest.leafOutline?, declared, behind, tokens_pathForest]
  rfl

/-- The outline of a leaf, read off its rule, is that of the member it declares. -/
theorem leafOutline_forest (l : Leaf) : l.forest.leafOutline? l.rule = some l.member.outline := by
  cases l with
  | directive line => rfl
  | property p => exact leafOutline_property p
  | cases c => exact leafOutline_cases c
  | function head classWord keyword name signature body =>
    exact leafOutline_function head classWord keyword name signature body
  | constructor head keyword signature body =>
    simp [forest, rule, Forest.leafOutline?, Forest.keyword, words_signature,
      words_body]
    rfl
  | destructor head keyword body =>
    simp [forest, rule, Forest.leafOutline?, Forest.keyword, words_body]
    rfl
  | subscript head keyword signature body =>
    simp [forest, rule, Forest.leafOutline?, Forest.keyword, words_signature,
      words_body]
    rfl
  | typeAlias head keyword name signature => exact leafOutline_alias head keyword name signature
  | importing head keyword what name path => exact leafOutline_import head keyword what name path

end Leaf

/-! ## Rows -/

theorem Forest.outlines_item (f g : Forest) :
    (node .item f g).outlines = f.outlines ++ g.outlines := rfl

theorem Forest.outlines_decl (f : Forest) : (under .decl f).outlines = f.outlines :=
  List.append_nil _

theorem Forest.outlines_block (f : Forest) : (under .memberBlock f).outlines = f.outlines :=
  List.append_nil _

theorem Leaf.outlines_forest (l : Leaf) :
    (Forest.under l.rule l.forest).outlines = [l.member.outline] := by
  have none : Forest.nominalKind? l.rule = none := by cases l <;> rfl
  simp only [Forest.under, Forest.outlines, none, l.leafOutline_forest]

theorem outlines_headerForest (atoms : List HeaderAtom) : (headerForest atoms).outlines = [] := by
  induction atoms with
  | nil => rfl
  | cons a atoms ih => exact ih

/-- Nothing is declared in front of the members of a type. -/
theorem Header.outlines_forest (h : Header) (block : Forest) :
    (h.forest block).outlines = block.outlines := by
  cases h with
  | structured head keyword name generics inheritance requirements =>
    cases generics <;> cases inheritance <;> cases requirements <;> rfl
  | loose head keyword name atoms =>
    simp only [forest, Forest.outlines_append, outlines_headerForest]
    rfl

theorem Header.nameParts_forest (block : Forest) : (atoms : List HeaderAtom) →
    (headerForest atoms ++ .under .memberBlock block).nameParts = (nameParts atoms).1
  | [] => rfl
  | [.word _] => rfl
  | .group .. :: _ => rfl
  | .word _ :: .group .. :: _ => rfl
  | .word dot :: .word part :: rest => by
    have ih := nameParts_forest block rest
    rw [headerForest, List.map_cons, List.map_cons, nameParts]
    simp only [Forest.concat_cons, Forest.under, Forest.node_append, Forest.nil_append,
      Atom.forest, Forest.ofToken, Forest.nameParts]
    split
    · rw [← ih]
      rfl
    · rfl

/-- The name behind the keyword of a type, and what stands behind it. -/
theorem declared_of_keyword (head : Head) {keyword : Token} (h : keyword.kind ≠ .name)
    (name : Tok .name) (f : Forest) :
    (head.forest ++ (.ofToken keyword ++ (.ofToken name.val ++ f))).declaredName = name.text ∧
      (head.forest ++ (.ofToken keyword ++ (.ofToken name.val ++ f))).behindName = f := by
  constructor
  · simp [Forest.declaredName, h, name.kind_eq, Word.text]
  · exact (Forest.behindName_ofToken_append _ h).trans (Forest.behindName_name name f)

theorem Header.nominalName_forest (h : Header) (block : Forest) :
    (h.forest (.under .memberBlock block)).nominalName (kindOf h.keyword.kind) = h.fullName := by
  cases h with
  | structured head keyword name generics inheritance requirements =>
    have words : ∀ k : Kind, k.isStructuredNominal = true →
        k ≠ .name ∧ kindOf k ≠ .extensionKind := by decide
    obtain ⟨notName, notExtension⟩ := words _ keyword.property
    obtain ⟨declared, -⟩ := declared_of_keyword head notName name
      (optionForest (fun g => .under .genericParams g.forest) generics ++
        (optionForest (fun i => .under .inheritance i.forest) inheritance ++
          (optionForest (fun w => .under .whereClause w.forest) requirements ++
            .under .memberBlock block)))
    simp only [Forest.nominalName, Header.keyword, forest, fullName]
    exact declared
  | loose head keyword name atoms =>
    have words : ∀ k : Kind, k.isLooseNominal = true → k ≠ .name ∧
        (k = .extensionKw ∨ k = .protocolKw) := by decide
    obtain ⟨notName, is⟩ := words _ keyword.property
    obtain ⟨declared, behind⟩ := declared_of_keyword head notName name
      (headerForest atoms ++ .under .memberBlock block)
    simp only [Forest.nominalName, Header.keyword, forest, fullName, declared, behind,
      nameParts_forest]
    rcases is with eq | eq <;> simp [eq, kindOf]

theorem Header.nominalKind (h : Header) :
    Forest.nominalKind? (nominalRule h.keyword.kind) = some (kindOf h.keyword.kind) := by
  have all : ∀ k : Kind, (k.isStructuredNominal || k.isLooseNominal) = true →
      Forest.nominalKind? (nominalRule k) = some (kindOf k) := by decide
  cases h with
  | structured head keyword => exact all _ (by simp [Header.keyword, keyword.property])
  | loose head keyword => exact all _ (by simp [Header.keyword, keyword.property])

/-- The outline of a type is its kind, its name and the outlines of its members. -/
theorem Header.outlines_nominal (h : Header) (block : Forest) :
    (Forest.under (nominalRule h.keyword.kind) (h.forest (.under .memberBlock block))).outlines =
      [.nominal (kindOf h.keyword.kind) h.fullName block.outlines] := by
  simp only [Forest.under, Forest.outlines, h.nominalKind]
  rw [show Forest.node .memberBlock block .nil = .under .memberBlock block from rfl,
    h.nominalName_forest, h.outlines_forest, Forest.outlines_block]

namespace Items

theorem outlines_members (i : Items) : i.forest.outlines = Member.outlines i.members := by
  induction i with
  | nil => rfl
  | semicolon mark rest ih => exact ih
  | leaf l rest ih =>
    rw [forest, Forest.outlines_item, Forest.outlines_decl, l.outlines_forest, ih]
    rfl
  | nominal header opening members closing rest ihMembers ihRest =>
    rw [forest, Forest.outlines_item, Forest.outlines_decl, header.outlines_nominal, ihRest]
    simp only [Forest.outlines_append, Forest.outlines_ofToken, List.append_nil, List.nil_append,
      ihMembers]
    rfl

theorem outside_leaf (l : Leaf) : l.member.outline.outside = l.declaration.outline := by
  cases l with
  | property p =>
    have name : p.bindings.first.declared.name = p.bindings.first.name? := by
      cases p.bindings.first <;> rfl
    exact congrArg (Outline.stateless _) name
  | _ => rfl

/-- The outline of what a row declares is that of its derivation. -/
theorem outlines_declarations (i : Items) :
    i.forest.outlines.map Outline.outside = i.declarations.map Declaration.outline := by
  induction i with
  | nil => rfl
  | semicolon mark rest ih => exact ih
  | leaf l rest ih =>
    rw [forest, Forest.outlines_item, Forest.outlines_decl, l.outlines_forest, List.map_append, ih]
    exact congrArg (· :: _) (outside_leaf l)
  | nominal header opening members closing rest ihMembers ihRest =>
    rw [forest, Forest.outlines_item, Forest.outlines_decl, header.outlines_nominal,
      List.map_append, ihRest]
    simp only [Forest.outlines_append, Forest.outlines_ofToken, List.append_nil, List.nil_append,
      outlines_members]
    rfl

end Items

end Grammar

end Conformance
