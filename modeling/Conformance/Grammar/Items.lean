import Conformance.Grammar.Case
import Conformance.Grammar.Header
import Conformance.Grammar.Property

/-!
# Declarations in a row

A source, and the body of a type, is a row of declarations and semicolons.  Line
breaks do not count, so a declaration ends where the next token cannot belong to
it any more.

A *leaf* holds no further declarations.  Functions, initializers, subscripts and
aliases are leaves: their bodies are groups and their signatures runs of atoms,
as long as they can be.  A type declaration holds a row of its own.

The word `class` opens a class, a property or a function of the type; the token
behind it decides.
-/

namespace Conformance.Grammar

/-! ## Leaves -/

/-- A declaration without declarations in it. -/
inductive Leaf where
  /-- A line of compiler control. -/
  | directive (line : Tok .directive)
  /-- Constants or variables. -/
  | property (p : Property)
  /-- Cases of an enumeration. -/
  | cases (c : CaseGroup)
  /-- A function. -/
  | function (head : Head) (classWord : Option (Tok .classKw)) (keyword : Tok .funcKw)
      (name : Word Kind.isFunctionName) (signature : Signature) (body : Option (Group .brace))
  /-- An initializer. -/
  | constructor (head : Head) (keyword : Tok .initKw) (signature : Signature)
      (body : Option (Group .brace))
  /-- A deinitializer. -/
  | destructor (head : Head) (keyword : Tok .deinitKw) (body : Option (Group .brace))
  /-- A subscript. -/
  | subscript (head : Head) (keyword : Tok .subscriptKw) (signature : Signature)
      (body : Option (Group .brace))
  /-- An alias of a type, or an associated type. -/
  | typeAlias (head : Head) (keyword : Word Kind.isAliasWord) (name : Tok .name)
      (signature : Signature)
  /-- An import of a module or of a part of one. -/
  | importing (head : Head) (keyword : Tok .importKw) (what : Option (Word Kind.isImportWord))
      (name : Tok .name) (path : List (Tok .dot × Word Kind.isIdentifier))

namespace Leaf

/-- The tokens of an import path. -/
def pathTokens (path : List (Tok .dot × Word Kind.isIdentifier)) : List Token :=
  path.flatMap fun (dot, word) => [dot.val, word.val]

/-- The tokens of a leaf. -/
def tokens : Leaf → List Token
  | directive line => [line.val]
  | property p => p.tokens
  | cases c => c.tokens
  | function head classWord keyword name signature body =>
    head.tokens ++ optionTokens (fun w => [w.val]) classWord ++ keyword.val :: name.val ::
      Signature.tokens signature ++ optionTokens Group.tokens body
  | constructor head keyword signature body =>
    head.tokens ++ keyword.val :: Signature.tokens signature ++ optionTokens Group.tokens body
  | destructor head keyword body =>
    head.tokens ++ keyword.val :: optionTokens Group.tokens body
  | subscript head keyword signature body =>
    head.tokens ++ keyword.val :: Signature.tokens signature ++ optionTokens Group.tokens body
  | typeAlias head keyword name signature =>
    head.tokens ++ keyword.val :: name.val :: Signature.tokens signature
  | importing head keyword what name path =>
    head.tokens ++ keyword.val :: optionTokens (fun w => [w.val]) what ++ name.val ::
      pathTokens path

/-- Where a leaf begins. -/
def start : Leaf → Position
  | directive line => line.val.start
  | property p => p.head.start p.keyword
  | cases c => c.head.start c.keyword.val
  | function head (some word) .. => head.start word.val
  | function head none keyword .. => head.start keyword.val
  | constructor head keyword .. => head.start keyword.val
  | destructor head keyword .. => head.start keyword.val
  | subscript head keyword .. => head.start keyword.val
  | typeAlias head keyword .. => head.start keyword.val
  | importing head keyword .. => head.start keyword.val

/-- The body of a function, if a brace opens one. -/
def parseBody? (fuel : Nat) : Parser (Option (Group .brace)) := Group.parse? .brace fuel

/-- A function, from behind its head. -/
def parseFunction (fuel : Nat) (head : Head) : Parser Leaf := do
  let classWord ← Parser.optional (· == .classKw) (Parser.token .classKw)
  let keyword ← Parser.token .funcKw
  let name ← Parser.word Kind.isFunctionName
  let signature ← Signature.parse fuel
  let body ← parseBody? fuel
  pure (function head classWord keyword name signature body)

/-- An initializer, from behind its head. -/
def parseConstructor (fuel : Nat) (head : Head) : Parser Leaf := do
  let keyword ← Parser.token .initKw
  let signature ← Signature.parse fuel
  let body ← parseBody? fuel
  pure (constructor head keyword signature body)

/-- A deinitializer, from behind its head. -/
def parseDestructor (fuel : Nat) (head : Head) : Parser Leaf := do
  let keyword ← Parser.token .deinitKw
  let body ← parseBody? fuel
  pure (destructor head keyword body)

/-- A subscript, from behind its head. -/
def parseSubscript (fuel : Nat) (head : Head) : Parser Leaf := do
  let keyword ← Parser.token .subscriptKw
  let signature ← Signature.parse fuel
  let body ← parseBody? fuel
  pure (subscript head keyword signature body)

/-- An alias, from behind its head. -/
def parseAlias (fuel : Nat) (head : Head) : Parser Leaf := do
  let keyword ← Parser.word Kind.isAliasWord
  let name ← Parser.token .name
  let signature ← Signature.parse fuel
  pure (typeAlias head keyword name signature)

/-- An import, from behind its head. -/
def parseImport (fuel : Nat) (head : Head) : Parser Leaf := do
  let keyword ← Parser.token .importKw
  let what ← Parser.optional Kind.isImportWord (Parser.word Kind.isImportWord)
  let name ← Parser.token .name
  let path ← Parser.many (· == .dot) (do
    let dot ← Parser.token .dot
    let word ← Parser.word Kind.isIdentifier
    pure (dot, word)) fuel
  pure (importing head keyword what name path)

end Leaf

/-! ## The forms of a declaration -/

/-- What a declaration turns out to be behind its head. -/
inductive Form where
  /-- A type with a structured header. -/
  | structured
  /-- A type with a loose header. -/
  | loose
  /-- A leaf, with its parser. -/
  | leaf (parse : Nat → Head → Parser Leaf)
  /-- No declaration goes on like this. -/
  | impossible

/-- The form of a declaration by the first two kinds behind its head. -/
def Form.of (first second : Option Kind) : Form :=
  match first with
  | some .structKw | some .enumKw | some .actorKw => structured
  | some .protocolKw | some .extensionKw => loose
  | some .classKw =>
    match second with
    | some .letKw | some .varKw => leaf fun n h => Leaf.property <$> Property.parse n h
    | some .funcKw => leaf Leaf.parseFunction
    | _ => structured
  | some .letKw | some .varKw => leaf fun n h => Leaf.property <$> Property.parse n h
  | some .caseKw => leaf fun n h => Leaf.cases <$> CaseGroup.parse n h
  | some .funcKw => leaf Leaf.parseFunction
  | some .initKw => leaf Leaf.parseConstructor
  | some .deinitKw => leaf Leaf.parseDestructor
  | some .subscriptKw => leaf Leaf.parseSubscript
  | some .typealiasKw | some .associatedtypeKw => leaf Leaf.parseAlias
  | some .importKw => leaf Leaf.parseImport
  | _ => impossible

/-- Whether a kind may start a declaration other than a directive. -/
def startsDeclaration (k : Kind) : Bool :=
  k == .atSign || k.isModifier || match Form.of (some k) none with
    | .impossible => false
    | _ => true

/-! ## Rows -/

/-- A row of declarations and semicolons. -/
inductive Items where
  /-- The end of the row. -/
  | nil
  /-- A semicolon, and more. -/
  | semicolon (mark : Tok .semicolon) (rest : Items)
  /-- A leaf, and more. -/
  | leaf (l : Leaf) (rest : Items)
  /-- A type with its members, and more. -/
  | nominal (header : Header) (opening : Tok .leftBrace) (members : Items)
      (closing : Tok .rightBrace) (rest : Items)

namespace Items

/-- The tokens of a row. -/
def tokens : Items → List Token
  | nil => []
  | semicolon mark rest => mark.val :: rest.tokens
  | leaf l rest => l.tokens ++ rest.tokens
  | nominal header opening members closing rest =>
    header.tokens ++ opening.val :: members.tokens ++ closing.val :: rest.tokens

/-- A type with its members, and the row behind it, from behind its header.  `row` reads a row
inside it or behind it. -/
def parseNominal (row : Parser Items) (header : Header) : Parser Items := do
  let opening ← Parser.token .leftBrace
  let members ← row
  let closing ← Parser.token .rightBrace
  let rest ← row
  pure (nominal header opening members closing rest)

/-- A declaration other than a directive, and the row behind it. -/
def parseDeclaration (row : Parser Items) (fuel : Nat) : Parser Items := do
  let head ← Head.parse fuel
  match Form.of (← Parser.peek) (← Parser.peekSecond) with
  | .structured => parseNominal row (← Header.parseStructured fuel head)
  | .loose => parseNominal row (← Header.parseLoose fuel head)
  | .leaf parseLeaf =>
    let l ← parseLeaf fuel head
    let rest ← row
    pure (leaf l rest)
  | .impossible => Parser.stuck

/-- A row, up to the first token that starts neither a declaration nor a semicolon.  Each
declaration takes one unit of fuel, and its parts what is left. -/
def parse : (fuel : Nat) → Parser Items
  | 0 => Parser.stuck
  | fuel + 1 => do
    match ← Parser.peek with
    | none => pure nil
    | some .semicolon =>
      let mark ← Parser.token .semicolon
      let rest ← parse fuel
      pure (semicolon mark rest)
    | some .directive =>
      let line ← Parser.token .directive
      let rest ← parse fuel
      pure (leaf (.directive line) rest)
    | some k => if startsDeclaration k then parseDeclaration (parse fuel) fuel else pure nil

end Items

/-! ## Whole sources -/

/-- Fuel for every row of so many tokens: no phrase is nested deeper than eight levels for each
of its tokens. -/
def enough (tokens : Nat) : Nat := 8 * tokens + 8

/-- The declarations of a whole stream of tokens.  What is left behind the row is impossible. -/
def parse (ts : List Token) : Reading Items :=
  match Items.parse (enough ts.length) ts with
  | .done items [] => .done items []
  | .done _ rest => .stuck rest
  | .stuck rest => .stuck rest

end Conformance.Grammar
