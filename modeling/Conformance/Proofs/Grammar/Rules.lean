import Conformance.Token.Basic

/-!
# The rules of the grammar

The grammar of declarations as a table of rules, and what it is for a list of
tokens to be derived from a rule.

A *body* is the right side of a rule: words of some kinds, other rules, and
sequences, choices, options and repetitions of these.  A *forest* is a row of
derivation trees, each a token or a rule over the forest below it.  `Derives`
says that a forest is an instance of a body; it is the only place where the two
meet, and it knows nothing of how sources are read.

The grammar is ambiguous in one place.  Behind a dot in an expression a word such
as `public` may be the member that the dot asks for, or the first word of the
next declaration.  A derivation is *settled* if every such word is the member:
no bare dot of an expression has a member word directly behind it.
-/

namespace Conformance.Grammar

/-! ## Rules and bodies -/

/-- The names of the rules. -/
inductive Rule where
  -- sources and declarations
  | start | item | decl | compilerControl
  -- headers
  | declHead | declAttr | modifier | modifierDetail | genericParams | genericParam
  | inheritance | whereClause | headerAtom | memberBlock
  -- type declarations
  | structDecl | classDecl | enumDecl | actorDecl | protocolDecl | extensionDecl
  -- properties
  | varDecl | bindingKw | patternBinding | bindingPattern | typeClause | initializer
  | accessorBlock | observerBlock
  -- cases
  | caseDecl | enumCase | casePayload | payloadElem | payloadDefault | rawValue
  -- declarations that are not looked into
  | funcDecl | initDecl | deinitDecl | subscriptDecl | typealiasDecl | importDecl
  | funcName | importKind | sigAtom
  -- types
  | type | typeAttr | typeBody | effect | typeUnit | typePrimary | typeName | typeIdent
  | genericArgs | arrayType | dictType | tupleType | tupleTypeElem | prefixedType
  | typePostfix
  -- expressions and identifiers
  | expr | exprAtom | dotName | ident
  -- balanced groups
  | parenGroup | bracketGroup | braceGroup | nestedObserverGroup | any | token
deriving DecidableEq, Repr

/-- The right side of a rule. -/
inductive Body where
  /-- One token of one of some kinds. -/
  | word (kinds : List Kind)
  /-- One instance of a rule. -/
  | part (r : Rule)
  /-- One thing behind another. -/
  | seq (a b : Body)
  /-- One of two things. -/
  | choice (a b : Body)
  /-- A thing that may be missing. -/
  | optional (a : Body)
  /-- Any number of a thing. -/
  | many (a : Body)

namespace Body

/-- Several things behind each other. -/
def all : Body → List Body → Body
  | a, [] => a
  | a, b :: rest => seq a (all b rest)

/-- One of several things. -/
def oneOf : Body → List Body → Body
  | a, [] => a
  | a, b :: rest => choice a (oneOf b rest)

/-- A thing at least once. -/
def several (a : Body) : Body := seq a (many a)

/-- A thing at least once, with commas between each two. -/
def listed (a : Body) : Body := seq a (many (seq (word [.comma]) a))

end Body

/-! ## Words -/

/-- Modifiers that may have a detail in parentheses. -/
def detailWords : List Kind :=
  [.publicKw, .privateKw, .fileprivateKw, .internalKw, .openKw, .unownedKw]

/-- Modifiers that have no detail. -/
def plainModifiers : List Kind := [
  .staticKw, .finalKw, .lazyKw, .weakKw, .overrideKw, .mutatingKw, .nonmutatingKw, .requiredKw,
  .convenienceKw, .dynamicKw, .indirectKw, .nonisolatedKw, .optionalKw]

/-- The tokens of a header. -/
def headerWords : List Kind := [
  .name, .colon, .comma, .dot, .leftAngle, .rightAngle, .ampersand, .question, .bang, .equal,
  .operator, .whereKw, .classKw]

/-- The tokens of a signature. -/
def signatureWords : List Kind := [
  .name, .number, .string, .operator, .leftAngle, .rightAngle, .question, .bang, .ampersand,
  .arrow, .equal, .dot, .colon, .comma, .throwsKw, .rethrowsKw, .asyncKw, .whereKw, .backslash,
  .poundName]

/-- The tokens of an expression. -/
def expressionWords : List Kind := [
  .name, .number, .string, .poundName, .operator, .leftAngle, .rightAngle, .question, .bang,
  .ampersand, .arrow, .colon, .backslash, .dot]

/-- The reserved words that a dot in an expression takes along. -/
def memberWords : List Kind := [
  .initKw, .openKw, .lazyKw, .weakKw, .unownedKw, .dynamicKw, .indirectKw, .requiredKw,
  .convenienceKw, .optionalKw, .nonisolatedKw, .mutatingKw, .nonmutatingKw, .finalKw,
  .overrideKw, .asyncKw, .staticKw, .publicKw, .privateKw, .internalKw, .fileprivateKw]

/-- What may be an identifier. -/
def identifierWords : List Kind := [
  .name, .openKw, .lazyKw, .weakKw, .unownedKw, .dynamicKw, .indirectKw, .requiredKw,
  .convenienceKw, .optionalKw, .nonisolatedKw, .mutatingKw, .nonmutatingKw, .finalKw,
  .overrideKw, .actorKw]

/-- All tokens but brackets. -/
def groupWords : List Kind := [
  .name, .number, .string, .poundName, .directive, .operator, .leftAngle, .rightAngle,
  .question, .bang, .ampersand, .arrow, .equal, .dot, .colon, .comma, .semicolon, .atSign,
  .backslash, .structKw, .classKw, .enumKw, .actorKw, .protocolKw, .extensionKw, .caseKw,
  .letKw, .varKw, .funcKw, .initKw, .deinitKw, .subscriptKw, .typealiasKw, .associatedtypeKw,
  .importKw, .whereKw, .throwsKw, .rethrowsKw, .asyncKw, .publicKw, .privateKw,
  .fileprivateKw, .internalKw, .openKw, .staticKw, .finalKw, .lazyKw, .weakKw, .unownedKw,
  .overrideKw, .mutatingKw, .nonmutatingKw, .requiredKw, .convenienceKw, .dynamicKw,
  .indirectKw, .nonisolatedKw, .optionalKw]

/-! ## The table -/

open Body in
/-- The body of a type declaration with a structured header. -/
def structuredBody (keyword : Kind) : Body :=
  all (part .declHead) [word [keyword], word [.name], optional (part .genericParams),
    optional (part .inheritance), optional (part .whereClause), part .memberBlock]

open Body in
/-- The body of a type declaration with a loose header. -/
def looseBody (keyword : Kind) : Body :=
  all (part .declHead) [word [keyword], word [.name], many (part .headerAtom),
    part .memberBlock]

open Body in
/-- The body of a balanced group. -/
def groupBody (opener closer : Kind) : Body :=
  all (word [opener]) [many (part .any), word [closer]]

open Body in
/-- The rules. -/
def Rule.body : Rule → Body
  | start => many (part .item)
  | item => oneOf (part .decl) [word [.semicolon]]
  | decl => oneOf (part .structDecl) [part .classDecl, part .enumDecl, part .actorDecl,
      part .protocolDecl, part .extensionDecl, part .varDecl, part .caseDecl, part .funcDecl,
      part .initDecl, part .deinitDecl, part .subscriptDecl, part .typealiasDecl,
      part .importDecl, part .compilerControl]
  | compilerControl => word [.directive]
  | declHead => all (many (part .declAttr)) [many (part .modifier)]
  | declAttr => all (word [.atSign]) [word [.name], optional (part .parenGroup)]
  | modifier => oneOf (all (word detailWords) [optional (part .modifierDetail)])
      [word plainModifiers]
  | modifierDetail => all (word [.leftParen]) [word [.name], word [.rightParen]]
  | genericParams => all (word [.leftAngle]) [listed (part .genericParam), word [.rightAngle]]
  | genericParam => all (word [.name]) [optional (all (word [.colon]) [part .type])]
  | inheritance => all (word [.colon]) [listed (part .type)]
  | whereClause => all (word [.whereKw]) [several (part .headerAtom)]
  | headerAtom => oneOf (word headerWords) [part .parenGroup, part .bracketGroup]
  | memberBlock => all (word [.leftBrace]) [many (part .item), word [.rightBrace]]
  | structDecl => structuredBody .structKw
  | classDecl => structuredBody .classKw
  | enumDecl => structuredBody .enumKw
  | actorDecl => structuredBody .actorKw
  | protocolDecl => looseBody .protocolKw
  | extensionDecl => looseBody .extensionKw
  | varDecl => all (part .declHead) [optional (word [.classKw]), part .bindingKw,
      listed (part .patternBinding)]
  | bindingKw => word [.letKw, .varKw]
  | patternBinding => oneOf
      (all (part .bindingPattern) [optional (part .typeClause),
        optional (part .initializer), optional (part .observerBlock)])
      [all (part .bindingPattern) [optional (part .typeClause), part .accessorBlock]]
  | bindingPattern => oneOf (part .ident)
      [all (word [.leftParen]) [optional (listed (part .bindingPattern)), word [.rightParen]]]
  | typeClause => all (word [.colon]) [part .type]
  | initializer => all (word [.equal]) [part .expr]
  | accessorBlock => groupBody .leftBrace .rightBrace
  | observerBlock => groupBody .observerBrace .rightBrace
  | caseDecl => all (part .declHead) [word [.caseKw], listed (part .enumCase)]
  | enumCase => all (part .ident) [optional (part .casePayload), optional (part .rawValue)]
  | casePayload => all (word [.leftParen])
      [optional (listed (part .payloadElem)), word [.rightParen]]
  | payloadElem => oneOf
      (all (part .ident) [word [.colon], part .type, optional (part .payloadDefault)])
      [all (part .type) [optional (part .payloadDefault)]]
  | payloadDefault => all (word [.equal]) [part .expr]
  | rawValue => all (word [.equal]) [part .expr]
  | funcDecl => all (part .declHead) [optional (word [.classKw]), word [.funcKw],
      part .funcName, many (part .sigAtom), optional (part .braceGroup)]
  | initDecl => all (part .declHead) [word [.initKw], many (part .sigAtom),
      optional (part .braceGroup)]
  | deinitDecl => all (part .declHead) [word [.deinitKw], optional (part .braceGroup)]
  | subscriptDecl => all (part .declHead) [word [.subscriptKw], many (part .sigAtom),
      optional (part .braceGroup)]
  | typealiasDecl => oneOf
      (all (part .declHead) [word [.typealiasKw], word [.name], many (part .sigAtom)])
      [all (part .declHead) [word [.associatedtypeKw], word [.name], many (part .sigAtom)]]
  | importDecl => all (part .declHead) [word [.importKw], optional (part .importKind),
      word [.name], many (all (word [.dot]) [part .ident])]
  | funcName => oneOf (part .ident) [word [.operator, .leftAngle, .rightAngle, .equal, .bang,
      .question, .ampersand]]
  | importKind => word [.structKw, .classKw, .enumKw, .protocolKw, .funcKw, .varKw, .letKw,
      .typealiasKw]
  | sigAtom => oneOf (word signatureWords) [part .parenGroup, part .bracketGroup]
  | type => all (many (part .typeAttr)) [part .typeBody]
  | typeAttr => all (word [.atSign]) [word [.name]]
  | typeBody => oneOf (all (part .typeUnit) [many (all (word [.ampersand]) [part .typeUnit])])
      [all (part .typeUnit) [many (part .effect), word [.arrow], part .type]]
  | effect => word [.throwsKw, .rethrowsKw, .asyncKw]
  | typeUnit => all (part .typePrimary) [many (part .typePostfix)]
  | typePrimary => oneOf (part .typeName) [part .arrayType, part .dictType, part .tupleType,
      part .prefixedType]
  | typeName => all (part .typeIdent) [many (all (word [.dot]) [part .typeIdent])]
  | typeIdent => all (word [.name]) [optional (part .genericArgs)]
  | genericArgs => all (word [.leftAngle]) [listed (part .type), word [.rightAngle]]
  | arrayType => all (word [.leftSquare]) [part .type, word [.rightSquare]]
  | dictType => all (word [.leftSquare])
      [part .type, word [.colon], part .type, word [.rightSquare]]
  | tupleType => all (word [.leftParen])
      [optional (listed (part .tupleTypeElem)), word [.rightParen]]
  | tupleTypeElem => oneOf (all (part .ident) [word [.colon], part .type])
      [all (word [.name]) [part .ident, word [.colon], part .type], part .type]
  | prefixedType => all (word [.name]) [part .typePrimary]
  | typePostfix => word [.question, .bang]
  | expr => several (part .exprAtom)
  | exprAtom => oneOf (word expressionWords) [all (word [.dot]) [part .dotName],
      part .parenGroup, part .bracketGroup, part .braceGroup]
  | dotName => word memberWords
  | ident => word identifierWords
  | parenGroup => groupBody .leftParen .rightParen
  | bracketGroup => groupBody .leftSquare .rightSquare
  | braceGroup => groupBody .leftBrace .rightBrace
  | nestedObserverGroup => groupBody .observerBrace .rightBrace
  | any => oneOf (part .token) [part .parenGroup, part .bracketGroup, part .braceGroup,
      part .nestedObserverGroup]
  | token => word groupWords

/-! ## Forests -/

/-- A row of derivation trees. -/
inductive Forest where
  /-- No more trees. -/
  | nil
  /-- A token, and more trees. -/
  | leaf (t : Token) (rest : Forest)
  /-- A rule over the trees below it, and more trees. -/
  | node (r : Rule) (below rest : Forest)

namespace Forest

/-- One row behind another. -/
protected def append : Forest → Forest → Forest
  | nil, g => g
  | leaf t rest, g => leaf t (rest.append g)
  | node r below rest, g => node r below (rest.append g)

instance : Append Forest := ⟨Forest.append⟩

/-- The tree of one token. -/
def ofToken (t : Token) : Forest := leaf t nil

/-- The tree of one rule. -/
def under (r : Rule) (below : Forest) : Forest := node r below nil

/-- Rows behind each other. -/
def concat : List Forest → Forest
  | [] => nil
  | f :: fs => f ++ concat fs

/-- The tokens of a row. -/
def tokens : Forest → List Token
  | nil => []
  | leaf t rest => t :: rest.tokens
  | node _ below rest => below.tokens ++ rest.tokens

/-- Whether a tree is an atom of an expression that is nothing but a dot. -/
def IsBareDot (r : Rule) (below : Forest) : Prop :=
  r = .exprAtom ∧ ∃ t : Token, t.kind = .dot ∧ below = ofToken t

/-- No bare dot of an expression has a member word directly behind it, where `behind` are the
tokens behind the row. -/
def Settled : Forest → (behind : List Token) → Prop
  | nil, _ => True
  | leaf _ rest, behind => rest.Settled behind
  | node r below rest, behind =>
    (IsBareDot r below → ∀ t, (rest.tokens ++ behind).head? = some t → t.kind ∉ memberWords) ∧
      below.Settled (rest.tokens ++ behind) ∧ rest.Settled behind

/-! ## Equations -/

@[simp] theorem nil_append (g : Forest) : nil ++ g = g := rfl

@[simp] theorem leaf_append (t : Token) (f g : Forest) : leaf t f ++ g = leaf t (f ++ g) := rfl

@[simp] theorem node_append (r : Rule) (below f g : Forest) :
    node r below f ++ g = node r below (f ++ g) := rfl

@[simp] theorem append_nil (f : Forest) : f ++ nil = f := by
  induction f with
  | nil => rfl
  | leaf t rest ih => simp [ih]
  | node r below rest _ ih => simp [ih]

theorem append_assoc (f g h : Forest) : f ++ g ++ h = f ++ (g ++ h) := by
  induction f with
  | nil => rfl
  | leaf t rest ih => simp [ih]
  | node r below rest _ ih => simp [ih]

@[simp] theorem concat_nil : concat [] = nil := rfl

@[simp] theorem concat_cons (f : Forest) (fs : List Forest) :
    concat (f :: fs) = f ++ concat fs := rfl

@[simp] theorem tokens_nil : nil.tokens = [] := rfl

@[simp] theorem tokens_leaf (t : Token) (rest : Forest) :
    (leaf t rest).tokens = t :: rest.tokens := rfl

@[simp] theorem tokens_node (r : Rule) (below rest : Forest) :
    (node r below rest).tokens = below.tokens ++ rest.tokens := rfl

@[simp] theorem tokens_ofToken (t : Token) : (ofToken t).tokens = [t] := rfl

@[simp] theorem tokens_under (r : Rule) (below : Forest) :
    (under r below).tokens = below.tokens := by
  simp [under]

@[simp] theorem tokens_append (f g : Forest) : (f ++ g).tokens = f.tokens ++ g.tokens := by
  induction f with
  | nil => rfl
  | leaf t rest ih => simp [ih]
  | node r below rest _ ih => simp [ih]

@[simp] theorem tokens_concat (fs : List Forest) :
    (concat fs).tokens = fs.flatMap tokens := by
  induction fs with
  | nil => rfl
  | cons f fs ih => simp [ih]

theorem settled_append (f g : Forest) (behind : List Token) :
    (f ++ g).Settled behind ↔ f.Settled (g.tokens ++ behind) ∧ g.Settled behind := by
  induction f with
  | nil => simp [Settled]
  | leaf t rest ih => simp [Settled, ih]
  | node r below rest _ ih => simp [Settled, ih, and_assoc]

@[simp] theorem settled_nil (behind : List Token) : nil.Settled behind := trivial

@[simp] theorem settled_ofToken (t : Token) (behind : List Token) :
    (ofToken t).Settled behind := trivial

theorem settled_under {r : Rule} (h : r ≠ .exprAtom) (below : Forest) (behind : List Token) :
    (under r below).Settled behind ↔ below.Settled behind := by
  simp [under, Settled, IsBareDot, h]

end Forest

/-! ## Derivations -/

/-- A forest is an instance of a body. -/
inductive Derives : Body → Forest → Prop
  | word {kinds : List Kind} {t : Token} (mem : t.kind ∈ kinds) :
      Derives (.word kinds) (.ofToken t)
  | part {r : Rule} {f : Forest} (below : Derives r.body f) : Derives (.part r) (.under r f)
  | seq {a b : Body} {f g : Forest} (first : Derives a f) (second : Derives b g) :
      Derives (.seq a b) (f ++ g)
  | left {a b : Body} {f : Forest} (only : Derives a f) : Derives (.choice a b) f
  | right {a b : Body} {f : Forest} (only : Derives b f) : Derives (.choice a b) f
  | missing {a : Body} : Derives (.optional a) .nil
  | present {a : Body} {f : Forest} (only : Derives a f) : Derives (.optional a) f
  | none {a : Body} : Derives (.many a) .nil
  | more {a : Body} {f g : Forest} (first : Derives a f) (others : Derives (.many a) g) :
      Derives (.many a) (f ++ g)

/-- A settled derivation of a list of tokens from the start rule. -/
structure IsDerivation (f : Forest) (ts : List Token) : Prop where
  /-- The forest is an instance of the start rule. -/
  derives : Derives (.part .start) f
  /-- Its tokens are the given ones. -/
  tokens : f.tokens = ts
  /-- Every dot has taken its member word along. -/
  settled : f.Settled []

end Conformance.Grammar
