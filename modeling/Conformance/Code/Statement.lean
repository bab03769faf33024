import Conformance.Code.Line
import Conformance.Code.Name

/-!
# Statements of generated code

The bodies of generated functions, as data.  A *step* is one statement without
branches, and a *statement* a step or a branch whose arms hold steps.  What a
body does can be read off this data; its text is no more than the print of it.

Every step is named for what it does to the stores and hashers it works on.  The
*outer* store is keyed by field or by variant, and the *inner* store, which is
opened below a key of the outer one, by place.
-/

namespace Conformance

/-! ## Steps -/

/-- The stores that values are coded into. -/
inductive Store where
  | outer | inner
deriving DecidableEq, Repr

/-- The local name of a store. -/
def Store.name : Store → String
  | outer => "container"
  | inner => "nestedContainer"

/-- The name of the keys of the outer store. -/
def outerKeys : String := "CodingKeys"

/-- A value that is decoded: the name it is for, its type, and its key. -/
structure Decoded where
  /-- What the value is for. -/
  name : String
  /-- The type. -/
  type : String
  /-- The key. -/
  key : String
deriving DecidableEq, Repr

/-- The expression that decodes a value from a store. -/
def Decoded.expression (d : Decoded) (s : Store) : String :=
  "try " ++ s.name ++ ".decode(" ++ d.type ++ ".self, forKey: ." ++ d.key ++ ")"

/-- A statement without branches. -/
inductive Step where
  /-- Nothing, on a line of its own. -/
  | blank
  /-- Opens the outer store for writing, and keeps it if it is needed. -/
  | openWriting (keep : Bool)
  /-- Opens the outer store for reading, and keeps it if it is needed. -/
  | openReading (keep : Bool)
  /-- Writes a value under a key. -/
  | encode (store : Store) (value key : String)
  /-- Writes that a key is there and has no value. -/
  | encodeNil (key : String)
  /-- Opens the inner store for writing, below a key. -/
  | openInnerWriting (keys key : String)
  /-- Opens the inner store for reading, below a key. -/
  | openInnerReading (keys key : String)
  /-- Reads that a key has no value. -/
  | decodeNil (key : String)
  /-- Reads a value under a key. -/
  | decode (value : Decoded)
  /-- Reads several values from the inner store at once. -/
  | decodeInner (values : List Decoded)
  /-- Sets the value that is being made. -/
  | become (value : Construction)
  /-- Makes the value from decoded fields. -/
  | delegate (fields : List Decoded)
  /-- Gives up: the store holds no value of the type. -/
  | reject (type : String)
  /-- Returns whether all pairs are equal, true if there is none. -/
  | returnEqual (pairs : List (String × String))
  /-- Returns true. -/
  | returnTrue
  /-- Returns false unless both sides are of one variant. -/
  | requireSameName
  /-- Returns false unless the right side matches a pattern. -/
  | requireRight (pattern : CasePattern)
  /-- Returns false unless two values are equal. -/
  | requireEqual (left right : String)
  /-- Feeds a value to the hasher. -/
  | feed (value : String)
  /-- Starts the stable hash. -/
  | startHash
  /-- Mixes the stable hash of a value in. -/
  | mix (combine value property : String)
  /-- Returns the stable hash. -/
  | returnHash
deriving DecidableEq, Repr

/-- The property with the name of a value's variant. -/
def nameProperty : String := "caseName"

/-- The local name of the stable hash. -/
def hashName : String := "hashValue"

/-- Items with a comma behind each but the last. -/
def withCommas : List String → List String
  | [] => []
  | [s] => [s]
  | s :: rest => (s ++ ",") :: withCommas rest

namespace Step

/-- The lines of a step at a depth. -/
def lines (depth : Nat) : Step → List Line
  | blank => [.blank]
  | openWriting keep =>
    [.text depth ((if keep then "var container = " else "_ = ") ++
      "encoder.container(keyedBy: " ++ outerKeys ++ ".self)")]
  | openReading keep =>
    [.text depth ((if keep then "let container = " else "_ = ") ++
      "try decoder.container(keyedBy: " ++ outerKeys ++ ".self)")]
  | encode store value key =>
    [.text depth ("try " ++ store.name ++ ".encode(" ++ value ++ ", forKey: ." ++ key ++ ")")]
  | encodeNil key => [.text depth ("try container.encodeNil(forKey: ." ++ key ++ ")")]
  | openInnerWriting keys key =>
    [.text depth ("var nestedContainer = container.nestedContainer(keyedBy: " ++ keys ++
      ".self, forKey: ." ++ key ++ ")")]
  | openInnerReading keys key =>
    [.text depth ("let nestedContainer = try container.nestedContainer(keyedBy: " ++ keys ++
      ".self, forKey: ." ++ key ++ ")")]
  | decodeNil key => [.text depth ("_ = try container.decodeNil(forKey: ." ++ key ++ ")")]
  | decode value => [.text depth ("let " ++ value.name ++ " = " ++ value.expression .outer)]
  | decodeInner values =>
    .text depth ("let (" ++ commaList (values.map Decoded.name) ++ "): (" ++
        commaList (values.map Decoded.type) ++ ") = (") ::
      (withCommas (values.map (·.expression .inner))).map (Line.text (depth + 1)) ++
      [.text depth ")"]
  | become value => [.text depth ("self = " ++ value.text)]
  | delegate [] => [.text depth "self.init()"]
  | delegate fields =>
    .text depth "self.init(" ::
      (withCommas (fields.map fun f => f.name ++ ": " ++ f.expression .outer)).map
        (Line.text (depth + 1)) ++
      [.text depth ")"]
  | reject type => [
    .text depth "throw DecodingError.dataCorrupted(",
    .text (depth + 1) "DecodingError.Context(",
    .text (depth + 2) "codingPath: container.codingPath,",
    .text (depth + 2) ("debugDescription: \"Unable to decode " ++ type ++
      ": no valid case found.\""),
    .text (depth + 1) ")",
    .text depth ")"]
  | returnEqual [] => [.text depth "return true"]
  | returnEqual ((l, r) :: rest) =>
    .text depth ("return " ++ l ++ " == " ++ r) ::
      rest.map fun (l, r) => .text (depth + 1) ("&& " ++ l ++ " == " ++ r)
  | returnTrue => [.text depth "return true"]
  | requireSameName => [
    .text depth ("guard lhs." ++ nameProperty ++ " == rhs." ++ nameProperty ++ " else \x7b"),
    .text (depth + 1) "return false",
    .text depth "\x7d"]
  | requireRight pattern =>
    [.text depth ("guard case " ++ pattern.text ++ " = rhs else \x7b return false \x7d")]
  | requireEqual left right =>
    [.text depth ("guard " ++ left ++ " == " ++ right ++ " else \x7b return false \x7d")]
  | feed value => [.text depth ("hasher.combine(" ++ value ++ ")")]
  | startHash => [.text depth ("var " ++ hashName ++ " = 0")]
  | mix combine value property =>
    [.text depth (combine ++ "(&" ++ hashName ++ ", " ++ value ++ "." ++ property ++ ")")]
  | returnHash => [.text depth ("return " ++ hashName)]

end Step

/-! ## Statements -/

/-- An arm of a switch. -/
structure Arm where
  /-- What it is for. -/
  pattern : CasePattern
  /-- What it does. -/
  body : List Step
deriving DecidableEq, Repr

/-- A statement. -/
inductive Statement where
  /-- A step. -/
  | step (s : Step)
  /-- Does what the arm of the subject's variant does.  With `otherwise`, variants without an arm
  do nothing. -/
  | switch (subject : String) (arms : List Arm) (otherwise : Bool)
  /-- Returns the text for the variant at hand. -/
  | returnName (texts : List (String × String))
  /-- Goes on with the one key of the store, and gives up unless there is exactly one. -/
  | requireOneKey (type : String)
deriving DecidableEq, Repr

namespace Arm

/-- The lines of an arm, whose label stands at a depth. -/
def lines (depth : Nat) (a : Arm) : List Line :=
  .text depth a.pattern.label :: a.body.flatMap (Step.lines (depth + 1))

end Arm

namespace Statement

/-- The lines of a statement at a depth. -/
def lines (depth : Nat) : Statement → List Line
  | step s => s.lines depth
  | switch subject arms otherwise =>
    .text depth ("switch " ++ subject ++ " \x7b") :: arms.flatMap (Arm.lines depth) ++
      (if otherwise then [.text depth "default:", .text (depth + 1) "break"] else []) ++
      [.text depth "\x7d"]
  | returnName texts =>
    .text depth "switch self \x7b" ::
      texts.map (fun (name, text) =>
        .text depth ("case ." ++ name ++ ": return " ++ text)) ++
      [.text depth "\x7d"]
  | requireOneKey type =>
    .text depth
        ("guard container.allKeys.count == 1, let key = container.allKeys.first else \x7b") ::
      (Step.reject type).lines (depth + 1) ++ [.text depth "\x7d"]

end Statement

end Conformance
