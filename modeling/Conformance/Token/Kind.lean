/-!
# Kinds of tokens

The terminal alphabet of Swift declarations.  A kind is a class of tokens with
free text (names, numbers, strings, operators, directives), one reserved word,
one operator with a meaning of its own, or one punctuation mark.

A reserved word is told from a name, and a meaningful operator from any other,
by its whole text (`Kind.ofWord`, `Kind.ofOperator`).  The *observer brace* is
the one kind that no text has by itself: it is an opening brace in front of
`willSet` or `didSet`, and only the token stream around a brace shows that.
-/

namespace Conformance

/-- A class of tokens that the grammar does not tell apart. -/
inductive Kind where
  -- free text
  | name | number | string | poundName | directive | operator
  -- reserved words
  | structKw | classKw | enumKw | actorKw | protocolKw | extensionKw
  | caseKw | letKw | varKw | funcKw | initKw | deinitKw | subscriptKw
  | typealiasKw | associatedtypeKw | importKw | whereKw
  | throwsKw | rethrowsKw | asyncKw
  | publicKw | privateKw | fileprivateKw | internalKw | openKw
  | staticKw | finalKw | lazyKw | weakKw | unownedKw | overrideKw
  | mutatingKw | nonmutatingKw | requiredKw | convenienceKw | dynamicKw
  | indirectKw | nonisolatedKw | optionalKw
  -- operators with a meaning
  | equal | arrow | leftAngle | rightAngle | question | bang | ampersand
  -- punctuation
  | leftParen | rightParen | leftSquare | rightSquare | leftBrace | observerBrace | rightBrace
  | comma | colon | semicolon | dot | atSign | backslash
deriving DecidableEq, Repr, Inhabited

namespace Kind

/-! ## From text to kind -/

/-- The reserved words. -/
def reserved : List (String × Kind) := [
  ("struct", structKw), ("class", classKw), ("enum", enumKw), ("actor", actorKw),
  ("protocol", protocolKw), ("extension", extensionKw), ("case", caseKw), ("let", letKw),
  ("var", varKw), ("func", funcKw), ("init", initKw), ("deinit", deinitKw),
  ("subscript", subscriptKw), ("typealias", typealiasKw), ("associatedtype", associatedtypeKw),
  ("import", importKw), ("where", whereKw), ("throws", throwsKw), ("rethrows", rethrowsKw),
  ("async", asyncKw), ("public", publicKw), ("private", privateKw),
  ("fileprivate", fileprivateKw), ("internal", internalKw), ("open", openKw),
  ("static", staticKw), ("final", finalKw), ("lazy", lazyKw), ("weak", weakKw),
  ("unowned", unownedKw), ("override", overrideKw), ("mutating", mutatingKw),
  ("nonmutating", nonmutatingKw), ("required", requiredKw), ("convenience", convenienceKw),
  ("dynamic", dynamicKw), ("indirect", indirectKw), ("nonisolated", nonisolatedKw),
  ("optional", optionalKw)]

/-- The operators with a meaning of their own. -/
def operators : List (String × Kind) := [
  ("=", equal), ("->", arrow), ("<", leftAngle), (">", rightAngle), ("?", question),
  ("!", bang), ("&", ampersand)]

/-- The kind of a word: its own if it is reserved, else a name. -/
def ofWord (text : String) : Kind := (reserved.lookup text).getD name

/-- The kind of a run of operator characters: its own if it has one. -/
def ofOperator (text : String) : Kind := (operators.lookup text).getD operator

/-- The kind of a punctuation mark. -/
def ofMark? : Char → Option Kind
  | '\\' => some backslash
  | '@' => some atSign
  | ':' => some colon
  | ',' => some comma
  | '.' => some dot
  | '{' => some leftBrace
  | '}' => some rightBrace
  | '(' => some leftParen
  | ')' => some rightParen
  | '[' => some leftSquare
  | ']' => some rightSquare
  | ';' => some semicolon
  | _ => none

/-- The kind of a single angle, question mark or exclamation mark. -/
def ofAngle? : Char → Option Kind
  | '<' => some leftAngle
  | '>' => some rightAngle
  | '?' => some question
  | '!' => some bang
  | _ => none

/-! ## Classes of the grammar -/

/-- Opens or closes a balanced group. -/
def isBracket : Kind → Bool
  | leftParen | rightParen | leftSquare | rightSquare | leftBrace | observerBrace | rightBrace =>
    true
  | _ => false

/-- Reserved words that may still name a property, a case, a function or a label. -/
def isSoftName : Kind → Bool
  | openKw | lazyKw | weakKw | unownedKw | dynamicKw | indirectKw | requiredKw | convenienceKw
  | optionalKw | nonisolatedKw | mutatingKw | nonmutatingKw | finalKw | overrideKw | actorKw =>
    true
  | _ => false

/-- What may name a property, a case, a function or a label. -/
def isIdentifier (k : Kind) : Bool := k == name || k.isSoftName

/-- Modifiers that may carry a detail, as in `private(set)` and `unowned(unsafe)`. -/
def takesDetail : Kind → Bool
  | publicKw | privateKw | fileprivateKw | internalKw | openKw | unownedKw => true
  | _ => false

/-- Words that may modify a declaration. -/
def isModifier : Kind → Bool
  | publicKw | privateKw | fileprivateKw | internalKw | openKw | unownedKw | staticKw | finalKw
  | lazyKw | weakKw | overrideKw | mutatingKw | nonmutatingKw | requiredKw | convenienceKw
  | dynamicKw | indirectKw | nonisolatedKw | optionalKw => true
  | _ => false

/-- Reserved words that may follow a dot in an expression, as in `.init` and `.open`. -/
def isMemberWord : Kind → Bool
  | initKw | openKw | lazyKw | weakKw | unownedKw | dynamicKw | indirectKw | requiredKw
  | convenienceKw | optionalKw | nonisolatedKw | mutatingKw | nonmutatingKw | finalKw
  | overrideKw | asyncKw | staticKw | publicKw | privateKw | internalKw | fileprivateKw => true
  | _ => false

/-- Words between the parameters of a function type and its arrow. -/
def isEffect : Kind → Bool
  | throwsKw | rethrowsKw | asyncKw => true
  | _ => false

/-- Marks behind a type. -/
def isPostfix : Kind → Bool
  | question | bang => true
  | _ => false

/-- Words that introduce a constant or a variable. -/
def isBinder : Kind → Bool
  | letKw | varKw => true
  | _ => false

/-- Words that open an alias of a type. -/
def isAliasWord : Kind → Bool
  | typealiasKw | associatedtypeKw => true
  | _ => false

/-- Words that open a type whose header is structured: generic parameters, supertypes and a
requirement clause, in this order. -/
def isStructuredNominal : Kind → Bool
  | structKw | classKw | enumKw | actorKw => true
  | _ => false

/-- Words that open a type whose header is loose. -/
def isLooseNominal : Kind → Bool
  | protocolKw | extensionKw => true
  | _ => false

/-- Words that may stand between `import` and the name of what is imported. -/
def isImportWord : Kind → Bool
  | structKw | classKw | enumKw | protocolKw | funcKw | varKw | letKw | typealiasKw => true
  | _ => false

/-- What may name a function: an identifier or an operator. -/
def isFunctionName : Kind → Bool
  | operator | leftAngle | rightAngle | equal | bang | question | ampersand => true
  | k => k.isIdentifier

/-- The tokens that an expression may hold outside its groups. -/
def isExpressionWord : Kind → Bool
  | name | number | string | poundName | operator | leftAngle | rightAngle | question | bang
  | ampersand | arrow | colon | backslash | dot => true
  | _ => false

/-- The tokens that a signature may hold outside its groups. -/
def isSignatureWord : Kind → Bool
  | name | number | string | operator | leftAngle | rightAngle | question | bang | ampersand
  | arrow | equal | dot | colon | comma | throwsKw | rethrowsKw | asyncKw | whereKw | backslash
  | poundName => true
  | _ => false

/-- The tokens that a loose header may hold outside its groups. -/
def isHeaderWord : Kind → Bool
  | name | colon | comma | dot | leftAngle | rightAngle | ampersand | question | bang | equal
  | operator | whereKw | classKw => true
  | _ => false

end Kind

end Conformance
