import Conformance.Json.Basic

/-!
# Reading JSON

The reader is strict but for three words: `NaN`, `Infinity` and `-Infinity` are
real numbers.  It stops at the first fault, which it reports with its line and
column.

A function of the reader takes the text that is left and gives a value with the
text behind it, or a fault with the number of characters left at its place.  The
place of a fault is the one a reader of the text would point at: an unclosed
string is reported where it opens, an invalid escape at its backslash, an
invalid `\u` escape at its `u`, a missing delimiter where it is missing.

The escapes of both halves of a surrogate pair stand for one character.  The escape
of a half by itself stands for the half.
-/

namespace Conformance.Json

/-! ## Faults -/

/-- Why a text is not JSON. -/
inductive Fault where
  | value
  | name
  | colon
  | comma
  | control
  | escape
  | unicodeEscape
  | unterminated
  | extra
  | byteOrderMark
  /-- An integer with more digits than the reader converts. -/
  | longInteger (digits : Nat)
deriving DecidableEq, Repr

/-- The most digits of an integer that the reader converts. -/
def integerDigitLimit : Nat := 4300

/-- The wording of a fault. -/
def Fault.message : Fault → String
  | value => "Expecting value"
  | name => "Expecting property name enclosed in double quotes"
  | colon => "Expecting ':' delimiter"
  | comma => "Expecting ',' delimiter"
  | control => "Invalid control character at"
  | escape => "Invalid \\escape"
  | unicodeEscape => "Invalid \\uXXXX escape"
  | unterminated => "Unterminated string starting at"
  | extra => "Extra data"
  | byteOrderMark => "Unexpected UTF-8 BOM (decode using utf-8-sig)"
  | longInteger digits =>
    "Exceeds the limit (" ++ toString integerDigitLimit ++ " digits) for integer string " ++
      "conversion: value has " ++ toString digits ++
      " digits; use sys.set_int_max_str_digits() to increase the limit"

/-- What a function of the reader gives: a value with the text behind it, or a fault with the
number of characters left at its place. -/
abbrev Reads (α : Type) := List Char → Except (Fault × Nat) (α × List Char)

/-! ## Blanks and words -/

/-- Blanks between the parts of a value. -/
def isSpace (c : Char) : Bool := c == ' ' || c == '\t' || c == '\n' || c == '\r'

/-- The text without blanks in front. -/
def skip (cs : List Char) : List Char := cs.dropWhile isSpace

/-- The text behind a word, if it stands in front. -/
def afterWord? : (word cs : List Char) → Option (List Char)
  | [], cs => some cs
  | _ :: _, [] => none
  | w :: word, c :: cs => if w = c then afterWord? word cs else none

/-! ## Strings -/

/-- The value of a hexadecimal digit. -/
def hexValue? (c : Char) : Option Nat :=
  if c.isDigit then some (c.toNat - 48)
  else if 'a' ≤ c && c ≤ 'f' then some (c.toNat - 87)
  else if 'A' ≤ c && c ≤ 'F' then some (c.toNat - 55)
  else none

/-- The value of the first `count` characters as hexadecimal digits. -/
def hex? : (count : Nat) → (acc : Nat) → List Char → Option Nat
  | 0, acc, _ => some acc
  | _ + 1, _, [] => none
  | count + 1, acc, c :: cs => (hexValue? c).bind fun d => hex? count (acc * 16 + d) cs

/-- What a backslash and a letter stand for. -/
def simpleEscape? : Char → Option Char
  | '"' => some '"'
  | '\\' => some '\\'
  | '/' => some '/'
  | 'b' => some '\x08'
  | 'f' => some '\x0c'
  | 'n' => some '\n'
  | 'r' => some '\r'
  | 't' => some '\t'
  | _ => none

/-- Whether a UTF-16 unit opens a surrogate pair. -/
def isHighSurrogate (n : Nat) : Bool := 0xD800 ≤ n && n < 0xDC00

/-- Whether a UTF-16 unit closes a surrogate pair. -/
def isLowSurrogate (n : Nat) : Bool := 0xDC00 ≤ n && n < 0xE000

/-- The character of a UTF-16 unit, or the half that it is. -/
def unitChar (n : Nat) : LooseChar :=
  if isHighSurrogate n || isLowSurrogate n then .half (.ofUnit n)
  else .char (Char.ofNat n)

/-- The character of a surrogate pair. -/
def pairChar (high low : Nat) : Char :=
  Char.ofNat (0x10000 + (high - 0xD800) * 0x400 + (low - 0xDC00))

/-- The four digits behind `\u`, and at least one character behind them. -/
def unit (cs : List Char) : Except (Fault × Nat) (Nat × List Char) :=
  match hex? 4 0 cs with
  | some n => if 4 < cs.length then .ok (n, cs.drop 4) else .error (.unicodeEscape, cs.length + 1)
  | none => .error (.unicodeEscape, cs.length + 1)

/-- The character or half of a `\u` escape, from behind its `u`.  A high surrogate takes the low
one behind it along; a `\u` escape that is long enough to be one must be well formed. -/
def unicode : Reads LooseChar := fun cs => do
  let (n, rest) ← unit cs
  match rest with
  | '\\' :: 'u' :: more =>
    if isHighSurrogate n && 4 < more.length then
      let (m, behind) ← unit more
      if isLowSurrogate m then .ok (.char (pairChar n m), behind) else .ok (unitChar n, rest)
    else .ok (unitChar n, rest)
  | _ => .ok (unitChar n, rest)

/-- The characters of a string up to its closing quote, from behind its opening one, where
`whole` characters are left from the opening quote on. -/
def stringBody (whole : Nat) : (fuel : Nat) → Reads (List LooseChar)
  | 0, _ => .error (.unterminated, whole)
  | _ + 1, [] => .error (.unterminated, whole)
  | _ + 1, '"' :: cs => .ok ([], cs)
  | _ + 1, '\\' :: [] => .error (.unterminated, whole)
  | fuel + 1, '\\' :: 'u' :: cs => do
    let (c, rest) ← unicode cs
    let (more, behind) ← stringBody whole fuel rest
    .ok (c :: more, behind)
  | fuel + 1, '\\' :: e :: cs =>
    match simpleEscape? e with
    | some c => do
      let (more, behind) ← stringBody whole fuel cs
      .ok (.char c :: more, behind)
    | none => .error (.escape, cs.length + 2)
  | fuel + 1, c :: cs =>
    if c.toNat < 0x20 then .error (.control, cs.length + 1)
    else do
      let (more, behind) ← stringBody whole fuel cs
      .ok (.char c :: more, behind)

/-- A string, from behind its opening quote. -/
def readString : Reads LooseText := fun cs => do
  let (body, rest) ← stringBody (cs.length + 1) (cs.length + 1) cs
  .ok (⟨body⟩, rest)

/-! ## Numbers -/

/-- The value of decimal digits. -/
def natOfDigits (ds : List Char) : Nat := ds.foldl (fun n d => 10 * n + (d.toNat - 48)) 0

/-- The whole part of a number: zero, or digits that do not start with zero. -/
def whole? : List Char → Option (List Char)
  | '0' :: _ => some ['0']
  | c :: cs => if c.isDigit then some (c :: cs.takeWhile Char.isDigit) else none
  | [] => none

/-- The fraction in front, with its point. -/
def fraction : List Char → List Char
  | '.' :: cs =>
    let ds := cs.takeWhile Char.isDigit
    if ds.isEmpty then [] else '.' :: ds
  | _ => []

/-- The digits of an exponent behind its letter and sign. -/
def exponentDigits (lead cs : List Char) : List Char :=
  let ds := cs.takeWhile Char.isDigit
  if ds.isEmpty then [] else lead ++ ds

/-- The exponent in front, with its letter and sign. -/
def exponent : List Char → List Char
  | e :: cs =>
    if e == 'e' || e == 'E' then
      match cs with
      | '+' :: rest => exponentDigits [e, '+'] rest
      | '-' :: rest => exponentDigits [e, '-'] rest
      | _ => exponentDigits [e] cs
    else []
  | [] => []

/-- A number. -/
def readNumber : Reads Json := fun cs =>
  let (sign, body) := match cs with
    | '-' :: rest => (['-'], rest)
    | _ => ([], cs)
  match whole? body with
  | none => .error (.value, cs.length)
  | some ds =>
    let rest := body.drop ds.length
    let frac := fraction rest
    let rest := rest.drop frac.length
    let exp := exponent rest
    let rest := rest.drop exp.length
    if frac.isEmpty && exp.isEmpty then
      if integerDigitLimit < ds.length then .error (.longInteger ds.length, cs.length)
      else
        let n : Int := natOfDigits ds
        .ok (.integer (if sign.isEmpty then n else -n), rest)
    else .ok (.real (String.ofList (sign ++ ds ++ frac ++ exp)), rest)

/-! ## Values -/

/-- The words that are values. -/
def wordValues : List (String × Json) := [
  ("null", .null), ("true", .bool true), ("false", .bool false),
  ("NaN", .real "NaN"), ("Infinity", .real "Infinity"), ("-Infinity", .real "-Infinity")]

/-- A value that is one word or number. -/
def readScalar : Reads Json := fun cs =>
  match wordValues.findSome? fun (w, v) => (afterWord? w.toList cs).map (v, ·) with
  | some found => .ok found
  | none => readNumber cs

mutual

/-- A value.  Each level of nesting and each item takes some fuel. -/
def readValue : (fuel : Nat) → Reads Json
  | 0, cs => .error (.value, cs.length)
  | fuel + 1, cs =>
    match cs with
    | '"' :: rest => do
      let (s, rest) ← readString rest
      .ok (.string s, rest)
    | '[' :: rest =>
      match skip rest with
      | ']' :: rest => .ok (.array [], rest)
      | rest => do
        let (items, rest) ← readItems fuel rest
        .ok (.array items, rest)
    | '\x7b' :: rest =>
      match skip rest with
      | '\x7d' :: rest => .ok (.object [], rest)
      | rest => do
        let (members, rest) ← readMembers fuel [] rest
        .ok (.object members, rest)
    | _ => readScalar cs

/-- The items of an array, at least one, and the closing bracket. -/
def readItems : (fuel : Nat) → Reads (List Json)
  | 0, cs => .error (.value, cs.length)
  | fuel + 1, cs => do
    let (v, rest) ← readValue fuel cs
    match skip rest with
    | ']' :: rest => .ok ([v], rest)
    | ',' :: rest => do
      let (vs, rest) ← readItems fuel (skip rest)
      .ok (v :: vs, rest)
    | rest => .error (.comma, rest.length)

/-- The members of an object behind those that were read, at least one, and the closing
brace. -/
def readMembers :
    (fuel : Nat) → (before : List (LooseText × Json)) → Reads (List (LooseText × Json))
  | 0, _, cs => .error (.value, cs.length)
  | fuel + 1, before, cs =>
    match cs with
    | '"' :: rest => do
      let (key, rest) ← readString rest
      match skip rest with
      | ':' :: rest => do
        let (v, rest) ← readValue fuel (skip rest)
        let members := setMember key v before
        match skip rest with
        | '\x7d' :: rest => .ok (members, rest)
        | ',' :: rest => readMembers fuel members (skip rest)
        | rest => .error (.comma, rest.length)
      | rest => .error (.colon, rest.length)
    | _ => .error (.name, cs.length)

end

/-! ## Whole texts -/

/-- A fault with its place in the text. -/
structure Located where
  /-- What is wrong. -/
  fault : Fault
  /-- The line of the place, from 1. -/
  line : Nat
  /-- The column of the place, from 1. -/
  column : Nat
deriving DecidableEq, Repr

/-- The place where some characters are left of a text. -/
def locate (cs : List Char) (fault : Fault) (left : Nat) : Located :=
  let before := cs.take (cs.length - left)
  { fault
    line := before.count '\n' + 1
    column := (before.reverse.takeWhile (· != '\n')).length + 1 }

/-- The value that a text writes, or its first fault. -/
def parse (text : String) : Except Located Json :=
  let cs := text.toList
  let read : Except (Fault × Nat) Json :=
    match cs with
    | '\uFEFF' :: _ => .error (.byteOrderMark, cs.length)
    | _ => do
      let (v, rest) ← readValue (2 * cs.length + 2) (skip cs)
      match skip rest with
      | [] => .ok v
      | rest => .error (.extra, rest.length)
  match read with
  | .ok v => .ok v
  | .error (fault, left) => .error (locate cs fault left)

end Conformance.Json
