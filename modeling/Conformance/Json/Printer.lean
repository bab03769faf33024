import Conformance.Json.Basic
import Conformance.Text.Hex

/-!
# The text of a JSON value

One line, in ASCII.  A comma and a colon are each followed by a space, members
keep their order, and a character outside the printable range of ASCII is
written as the `\u` escapes of its UTF-16 units, as is half of a surrogate pair.
-/

namespace Conformance.Json

/-- The escape of a UTF-16 unit. -/
def unitEscape (n : Nat) : List Char := '\\' :: 'u' :: Text.hexDigits 4 n

/-- The escape of a character by its UTF-16 units. -/
def charEscape (c : Char) : List Char :=
  let n := c.toNat
  if n < 0x10000 then unitEscape n
  else unitEscape (0xD800 + (n - 0x10000) / 0x400) ++ unitEscape (0xDC00 + (n - 0x10000) % 0x400)

/-- A character inside a string. -/
def escapeChar (c : Char) : List Char :=
  match c with
  | '"' => ['\\', '"']
  | '\\' => ['\\', '\\']
  | '\n' => ['\\', 'n']
  | '\r' => ['\\', 'r']
  | '\t' => ['\\', 't']
  | '\x08' => ['\\', 'b']
  | '\x0c' => ['\\', 'f']
  | c => if ' ' ≤ c && c ≤ '~' then [c] else charEscape c

/-- A character or half inside a string. -/
def escapeLoose : LooseChar → List Char
  | .char c => escapeChar c
  | .half n => n.escape

/-- A string with its quotes. -/
def printString (s : LooseText) : String :=
  String.ofList ('"' :: s.chars.flatMap escapeLoose ++ ['"'])

mutual

/-- A value. -/
def print : Json → String
  | null => "null"
  | bool true => "true"
  | bool false => "false"
  | integer n => toString n
  | real literal => literal
  | string s => printString s
  | array items => "[" ++ ", ".intercalate (printItems items) ++ "]"
  | object members => "\x7b" ++ ", ".intercalate (printMembers members) ++ "\x7d"

/-- The items of an array. -/
def printItems : List Json → List String
  | [] => []
  | v :: vs => print v :: printItems vs

/-- The members of an object. -/
def printMembers : List (LooseText × Json) → List String
  | [] => []
  | (k, v) :: ms => (printString k ++ ": " ++ print v) :: printMembers ms

end

example : print (object [("a", array [integer 1, null]), ("é", string "\n😀")]) =
    "\x7b\"a\": [1, null], \"\\u00e9\": \"\\n\\ud83d\\ude00\"\x7d" := by decide

end Conformance.Json
