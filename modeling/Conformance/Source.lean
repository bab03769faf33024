import Conformance.Declaration.OfSyntax
import Conformance.Diagnostic
import Conformance.Token.Stream

/-!
# Reading a source

The declarations of a source text, or the first thing that is wrong with it.

Tokens are read as they are found, so of two faults the first one counts: a
token that is impossible where it stands comes before any stray character behind
it.  The end of the input is reported at the last token, since that is where
something is missing.

The note of a syntax error is an excerpt of the line around the place, with a
caret below it.
-/

namespace Conformance

/-! ## Syntax errors -/

/-- What is wrong with a source. -/
inductive SyntaxFault where
  /-- A character that no token starts with. -/
  | character (c : Char)
  /-- A token that cannot stand where it stands. -/
  | token (text : String)
  /-- The end where something is missing. -/
  | endOfInput
deriving DecidableEq, Repr

/-- The wording of a fault. -/
def SyntaxFault.message : SyntaxFault → String
  | character c => "unexpected character '" ++ String.singleton c ++ "'"
  | token text => "unexpected token '" ++ text ++ "'"
  | endOfInput => "unexpected end of input"

/-- A fault with its place. -/
structure SyntaxFailure where
  /-- What is wrong. -/
  fault : SyntaxFault
  /-- Where it is. -/
  position : Position
deriving DecidableEq, Repr

/-- The failure of a stray character. -/
def Stray.failure (s : Stray) : SyntaxFailure := ⟨.character s.char, s.position⟩

/-! ## Excerpts -/

/-- How many characters an excerpt shows on either side. -/
def excerptReach : Nat := 40

/-- The part of the line in front of a place, as far as the excerpt reaches. -/
def excerptBefore (cs : List Char) (offset : Nat) : List Char :=
  let reach := (cs.take offset).drop (offset - excerptReach)
  (reach.reverse.takeWhile (· != '\n')).reverse

/-- The part of the line behind a place, as far as the excerpt reaches. -/
def excerptAfter (cs : List Char) (offset : Nat) : List Char :=
  ((cs.drop offset).take excerptReach).takeWhile (· != '\n')

/-- How far apart tab stops are. -/
def tabWidth : Nat := 8

/-- The number of columns a text takes, where `column` is the column since the last tab stop
that counts.  A tab goes to the next stop, and a carriage return starts the stops anew. -/
def columns : (column : Nat) → List Char → Nat
  | _, [] => 0
  | column, c :: cs =>
    if c = '\t' then
      let gap := tabWidth - column % tabWidth
      gap + columns (column + gap) cs
    else if c = '\r' then 1 + columns 0 cs
    else 1 + columns (column + 1) cs

/-- The line around a place, and a caret below it. -/
def excerpt (cs : List Char) (offset : Nat) : String :=
  let before := excerptBefore cs offset
  String.ofList (before ++ excerptAfter cs offset ++ '\n' ::
    List.replicate (columns 0 before) ' ' ++ ['^'])

/-- The diagnostic of a syntax error in a source. -/
def SyntaxFailure.diagnostic (f : SyntaxFailure) (cs : List Char) (filename : Option String) :
    Diagnostic where
  message := f.fault.message
  code := some "E-SYNTAX"
  phase := some "parser"
  span := .ofLocation f.position.location filename
  notes := [excerpt cs f.position.offset]

/-! ## Reading -/

/-- The syntax of a source text, or its first fault. -/
def readSyntax (cs : List Char) : Except SyntaxFailure Grammar.Items :=
  let lexed := lex cs
  let tokens := lexed.delivered
  match Grammar.parse tokens, lexed.stray? with
  | .stuck (t :: _), _ => .error ⟨.token t.text, t.start⟩
  | _, some s => .error s.failure
  | .stuck [], none =>
    .error ⟨.endOfInput, (tokens.getLast?.map Token.start).getD .origin⟩
  | .done items _, none => .ok items

/-- The declarations of a source text, or the diagnostic of its first fault. -/
def SourceFile.read (text : String) (filename : Option String) : Except Diagnostic SourceFile :=
  let cs := text.toList
  match readSyntax cs with
  | .ok items => .ok ⟨items.declarations, filename⟩
  | .error f => .error (f.diagnostic cs filename)

/-- A result is there if something can be seen of it. -/
theorem exists_ok_of {ε α β : Type} {x : Except ε α} (see : α → β) {b : β}
    (seen : x.toOption.map see = some b) : ∃ a, x = .ok a ∧ see a = b := by
  cases x with
  | error e => cases seen
  | ok a => exact ⟨a, rfl, Option.some.inj seen⟩

end Conformance
