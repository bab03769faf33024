import Conformance.Text.WordChar
import Conformance.Token.Basic

/-!
# From text to tokens

At each place of a source the lexer asks nine patterns in a fixed order, and the
first that matches takes as many characters as it can.  The order matters: `#if`
is a directive before it is a pound name, and `//` a comment before it is an
operator.  Blanks and comments are layout and go to the next token.  Where no
pattern matches, the character is *stray* and lexing ends there.

A pattern is a function to the number of characters it takes, `none` if it does
not match.  Block comments do not nest, and one that is not closed is an
operator.  A string literal with three quotes that is not closed is an empty
string literal in front of whatever follows.

`lex_tiles` says that nothing is lost: tokens with their layout, and what
follows them, make up the source.
-/

namespace Conformance

/-- A number of characters at the front of a text, `none` where the pattern does not match. -/
abbrev Pattern := List Char → Option Nat

namespace Pattern

/-- How many characters of a class stand at the front. -/
def run (p : Char → Bool) (cs : List Char) : Nat := (cs.takeWhile p).length

/-- Any character but the line feed. -/
def inLine (c : Char) : Bool := c != '\n'

/-- Decimal digits and the underscore. -/
def isDigitPart (c : Char) : Bool := c.isDigit || c == '_'

/-- Hexadecimal digits and the underscore. -/
def isHexPart (c : Char) : Bool :=
  isDigitPart c || ('a' ≤ c && c ≤ 'f') || ('A' ≤ c && c ≤ 'F')

/-- The first character of a plain name. -/
def isNameStart (c : Char) : Bool := c.isAlpha || c == '_'

/-- The further characters of a plain name. -/
def isNamePart (c : Char) : Bool := c.isAlphanum || c == '_'

/-- The characters of operators. -/
def isOperatorChar (c : Char) : Bool := c ∈ "-+*/%=<>!&|^~?".toList

/-- Blanks between tokens.  Other white space of Unicode is stray in a source. -/
def isSpace (c : Char) : Bool := c ∈ [' ', '\t', '\x0c', '\r', '\n']

/-! ## Layout and directives -/

/-- The words that make a line after `#` a directive. -/
def directiveWords : List String :=
  ["if", "elseif", "else", "endif", "warning", "error", "sourceLocation"]

/-- A directive: `#`, one of its words and the rest of the line. -/
def directive : Pattern
  | '#' :: cs =>
    if String.ofList (cs.takeWhile Text.isWordChar) ∈ directiveWords then
      some (1 + run inLine cs)
    else none
  | _ => none

/-- The way up to and including the first `*/`. -/
def commentEnd : Pattern
  | '*' :: '/' :: _ => some 2
  | _ :: cs => (commentEnd cs).map (· + 1)
  | [] => none

/-- A comment: to the end of the line, or to the first closing mark. -/
def comment : Pattern
  | '/' :: '/' :: cs => some (2 + run inLine cs)
  | '/' :: '*' :: cs => (commentEnd cs).map (· + 2)
  | _ => none

/-- Blanks. -/
def space : Pattern := fun cs =>
  if 0 < run isSpace cs then some (run isSpace cs) else none

/-! ## Numbers and names -/

/-- The fraction behind the whole part of a number, which may be missing. -/
def fraction : List Char → Nat
  | '.' :: c :: cs => if c.isDigit then 2 + run isDigitPart cs else 0
  | _ => 0

/-- The sign in front of the digits of an exponent, which may be missing. -/
def sign : List Char → Nat
  | '+' :: _ | '-' :: _ => 1
  | _ => 0

/-- The exponent behind the digits of a number, which may be missing. -/
def exponent : List Char → Nat
  | 'e' :: cs | 'E' :: cs =>
    let digits := run Char.isDigit (cs.drop (sign cs))
    if 0 < digits then 1 + sign cs + digits else 0
  | _ => 0

/-- A number without a base: whole part, fraction and exponent. -/
def decimal : Pattern
  | c :: cs =>
    if c.isDigit then
      let whole := 1 + run isDigitPart cs
      let withFraction := whole + fraction ((c :: cs).drop whole)
      some (withFraction + exponent ((c :: cs).drop withFraction))
    else none
  | [] => none

/-- A number with a base, as `0xFF`.  The base does not restrict its digits. -/
def based : Pattern
  | '0' :: c :: cs =>
    if c ∈ ['x', 'o', 'b'] && 0 < run isHexPart cs then some (2 + run isHexPart cs) else none
  | _ => none

/-- A number. -/
def number : Pattern := fun cs => (based cs).or (decimal cs)

/-- A plain name, without a dollar sign or back quotes. -/
def plainName : Pattern
  | c :: cs => if isNameStart c then some (1 + run isNamePart cs) else none
  | [] => none

/-- A name or reserved word: back-quoted, a dollar sign with a number, or plain with perhaps a
dollar sign in front. -/
def name : Pattern
  | '\x60' :: cs =>
    let inner := run (fun c => c != '\x60' && c != '\n') cs
    if 0 < inner && (cs.drop inner).head? == some '\x60' then some (inner + 2) else none
  | '$' :: cs =>
    if 0 < run Char.isDigit cs then some (1 + run Char.isDigit cs)
    else (plainName cs).map (· + 1)
  | cs => plainName cs

/-- A pound sign and a plain name. -/
def poundName : Pattern
  | '#' :: cs => (plainName cs).map (· + 1)
  | _ => none

/-! ## String literals -/

/-- The way up to and including the first three quotes. -/
def tripleEnd : Pattern
  | '"' :: '"' :: '"' :: _ => some 3
  | _ :: cs => (tripleEnd cs).map (· + 1)
  | [] => none

/-- The way up to and including the closing quote on the same line.  A backslash takes the
character behind it along. -/
def quoteEnd : Pattern
  | '"' :: _ => some 1
  | '\\' :: c :: cs => if c == '\n' then none else (quoteEnd cs).map (· + 2)
  | '\\' :: [] => none
  | c :: cs => if c == '\n' then none else (quoteEnd cs).map (· + 1)
  | [] => none

/-- A literal between three quotes. -/
def tripleQuoted : Pattern
  | '"' :: '"' :: '"' :: cs => (tripleEnd cs).map (· + 3)
  | _ => none

/-- A literal between single quotes. -/
def quoted : Pattern
  | '"' :: cs => (quoteEnd cs).map (· + 1)
  | _ => none

/-- How many pound signs stand at the front. -/
def pounds (cs : List Char) : Nat := run (· == '#') cs

/-- A string literal, with any number of pound signs on either side. -/
def string : Pattern := fun cs =>
  let opening := pounds cs
  let body := cs.drop opening
  ((tripleQuoted body).or (quoted body)).map fun n => opening + n + pounds (body.drop n)

/-! ## Operators and marks -/

/-- A run of operator characters. -/
def operator : Pattern := fun cs =>
  if 0 < run isOperatorChar cs then some (run isOperatorChar cs) else none

/-- A punctuation mark. -/
def mark : Pattern
  | c :: _ => if (Kind.ofMark? c).isSome then some 1 else none
  | [] => none

end Pattern

/-! ## The order of the patterns -/

/-- What a matched text is. -/
inductive Lexical where
  | directive | comment | number | word | string | poundName | operator | space | mark
deriving DecidableEq, Repr

namespace Lexical

/-- The patterns in the order in which they are asked. -/
def patterns : List (Lexical × Pattern) := [
  (directive, Pattern.directive), (comment, Pattern.comment), (number, Pattern.number),
  (word, Pattern.name), (string, Pattern.string), (poundName, Pattern.poundName),
  (operator, Pattern.operator), (space, Pattern.space), (mark, Pattern.mark)]

/-- The first pattern that matches, with the number of characters it takes. -/
def front? (cs : List Char) : Option (Lexical × Nat) :=
  patterns.findSome? fun (l, p) => (p cs).map (l, ·)

/-- The kind of a matched text, `none` for layout. -/
def kind? (l : Lexical) (text : List Char) : Option Kind :=
  match l with
  | directive => some .directive
  | number => some .number
  | word => some (Kind.ofWord (String.ofList text))
  | string => some .string
  | poundName => some .poundName
  | operator => some (Kind.ofOperator (String.ofList text))
  | mark => text.head?.bind Kind.ofMark?
  | comment | space => none

end Lexical

/-! ## Lexing -/

/-- A character that no pattern takes. -/
structure Stray where
  /-- The character. -/
  char : Char
  /-- Its place. -/
  position : Position
deriving DecidableEq, Repr

/-- The outcome of lexing: the tokens in front of the first stray character, if there is one. -/
structure Lexed where
  /-- The tokens. -/
  tokens : List Token
  /-- The layout behind the last token. -/
  trailing : String
  /-- The stray character that ended lexing. -/
  stray? : Option Stray
deriving Repr

/-- Lexing from a position, with the layout that has gathered in front of the next token.  Each
round takes at least one character, so `fuel` rounds are enough for `fuel` characters. -/
def lexFrom : (fuel : Nat) → Position → (layout : String) → List Char → Lexed
  | 0, _, layout, _ => ⟨[], layout, none⟩
  | _ + 1, _, layout, [] => ⟨[], layout, none⟩
  | fuel + 1, p, layout, c :: cs =>
    match Lexical.front? (c :: cs) with
    | none => ⟨[], layout, some ⟨c, p⟩⟩
    | some (l, n) =>
      let text := (c :: cs).take n
      let next := p.advance text
      let rest := (c :: cs).drop n
      match l.kind? text with
      | none => lexFrom fuel next (layout ++ String.ofList text) rest
      | some k =>
        let tail := lexFrom fuel next "" rest
        { tail with tokens := ⟨k, layout, String.ofList text, p, next⟩ :: tail.tokens }

/-- The tokens of a source text. -/
def lex (cs : List Char) : Lexed := lexFrom cs.length .origin "" cs

end Conformance
