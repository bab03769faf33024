import Conformance.Code.Equality
import Conformance.Feature
import Conformance.Json.Basic
import Conformance.Text.Blank

/-!
# Settings

What can be configured: the indentation of generated code, the type of fields
whose type is not written, the names in the code for stable hashes, and the
features to generate if none is asked for.

Settings come from a JSON object in which every member may be missing.  The
checks stand in a fixed order, and the first that fails is reported:

1. the value is an object;
2. it has no unknown member, of several the least by its characters;
3. `indent` is an integer in range;
4. `unknown_type` is a text that is not blank;
5. `stable_hash` is an object, has no unknown member, and its members are texts
   that are not blank;
6. `conformances` is a list of texts, and each names a feature.

None of them looks at the order of members.

The texts of a JSON value are loose, so what comes of it are *loose settings*.  Code
is generated with settings whose texts are strings, such as their fillings.
-/

namespace Conformance

/-- The settings of a run. -/
structure Settings where
  /-- The spaces of one level of indentation. -/
  indent : Nat := 4
  /-- The type of fields whose type is not written. -/
  unknownType : String := "<unknown>"
  /-- The names in the code for stable hashes. -/
  stableHash : StableHashNames := ⟨"StableHashable", "stableHash", "combineHashes"⟩
  /-- The features to generate if none is asked for. -/
  features : List Feature := [.codable, .equatable]
deriving DecidableEq, Repr

namespace Settings

/-- One level of indentation. -/
def indentUnit (s : Settings) : String := String.ofList (List.replicate s.indent ' ')

end Settings

/-- Settings as they are read. -/
structure LooseSettings where
  /-- The spaces of one level of indentation. -/
  indent : Nat
  /-- The type of fields whose type is not written. -/
  unknownType : LooseText
  /-- The names in the code for stable hashes. -/
  stableHash : StableHashNames LooseText
  /-- The features to generate if none is asked for. -/
  features : List Feature
deriving DecidableEq, Repr

/-- The names with a character in place of each half. -/
def StableHashNames.fill (stand : Half → Char) (names : StableHashNames LooseText) :
    StableHashNames :=
  ⟨names.conformance.fill stand, names.property.fill stand, names.combine.fill stand⟩

namespace LooseSettings

/-- Settings as they would be read. -/
def ofSettings (s : Settings) : LooseSettings where
  indent := s.indent
  unknownType := s.unknownType
  stableHash := ⟨s.stableHash.conformance, s.stableHash.property, s.stableHash.combine⟩
  features := s.features

/-- The settings with a character in place of each half. -/
def fill (stand : Half → Char) (s : LooseSettings) : Settings where
  indent := s.indent
  unknownType := s.unknownType.fill stand
  stableHash := s.stableHash.fill stand
  features := s.features

/-- Settings without halves are their own filling. -/
@[simp] theorem fill_ofSettings (stand : Half → Char) (s : Settings) :
    (ofSettings s).fill stand = s := by
  simp [fill, ofSettings, StableHashNames.fill]

end LooseSettings

namespace Settings

/-! ## Faults -/

/-- What is wrong with a configuration. -/
inductive Fault where
  | notObject
  | unknownKey (key : LooseText)
  | indent
  /-- A member that has to be a text with something on it. -/
  | blank (key : String)
  | stableHashNotObject
  | featuresNotTexts
  | unknownFeature (word : LooseText)
deriving DecidableEq, Repr

namespace Fault

/-- The wording of a fault. -/
def message : Fault → LooseText
  | notObject => "configuration must be a JSON object"
  | unknownKey key => "unknown configuration key '" ++ key ++ "'"
  | indent => "indent must be an integer between 1 and 8"
  | blank key => key ++ " must be a non-empty string"
  | stableHashNotObject => "stable_hash must be a JSON object"
  | featuresNotTexts => "conformances must be a list of strings"
  | unknownFeature word =>
    "unknown conformance '" ++ word ++ "' (expected one of: " ++
      ", ".intercalate (Feature.all.map Feature.word) ++ ")"

/-- The member that a fault is about. -/
def key? : Fault → Option LooseText
  | notObject => none
  | unknownKey key => some key
  | blank key => some key
  | indent => some "indent"
  | stableHashNotObject => some "stable_hash"
  | featuresNotTexts | unknownFeature _ => some "conformances"

end Fault

/-! ## Checks -/

/-- The members of a configuration. -/
def keys : List LooseText := ["indent", "unknown_type", "stable_hash", "conformances"]

/-- The members of the names for stable hashes. -/
def stableHashKeys : List LooseText := ["protocol", "property", "combine"]

/-- The least of several texts, none of an empty list. -/
def least? : List LooseText → Option LooseText
  | [] => none
  | s :: rest =>
    match least? rest with
    | some t => some (if t.before s then t else s)
    | none => some s

/-- The least key of an object that is not among the known ones. -/
def unknownKey? (known : List LooseText) (members : List (LooseText × Json)) :
    Option LooseText :=
  least? ((members.map Prod.fst).filter fun k => !known.contains k)

/-- Fails on an unknown key, which is reported behind the name of its object. -/
def checkKeys (outer : LooseText) (known : List LooseText) (members : List (LooseText × Json)) :
    Except Fault Unit :=
  match unknownKey? known members with
  | some k => .error (.unknownKey (outer ++ k))
  | none => .ok ()

/-- The indentation. -/
def checkIndent (default : Nat) : Option Json → Except Fault Nat
  | none => .ok default
  | some (.integer n) => if 1 ≤ n ∧ n ≤ 8 then .ok n.toNat else .error .indent
  | some _ => .error .indent

/-- A text that is not blank. -/
def checkText (label : String) (default : LooseText) : Option Json → Except Fault LooseText
  | none => .ok default
  | some (.string s) => if s.hasInk then .ok s else .error (.blank label)
  | some _ => .error (.blank label)

/-- The names for stable hashes. -/
def checkStableHash (default : StableHashNames LooseText) :
    Option Json → Except Fault (StableHashNames LooseText)
  | none => .ok default
  | some (.object members) => do
    let given (key : LooseText) := members.lookup key
    checkKeys "stable_hash." stableHashKeys members
    let conformance ← checkText "stable_hash.protocol" default.conformance (given "protocol")
    let property ← checkText "stable_hash.property" default.property (given "property")
    let combine ← checkText "stable_hash.combine" default.combine (given "combine")
    .ok ⟨conformance, property, combine⟩
  | some _ => .error .stableHashNotObject

/-- The texts of a list, if it holds nothing else. -/
def texts? : List Json → Option (List LooseText)
  | [] => some []
  | .string s :: rest => (texts? rest).map (s :: ·)
  | _ :: _ => none

/-- The features of words. -/
def featuresOfWords : List LooseText → Except Fault (List Feature)
  | [] => .ok []
  | w :: rest =>
    match w.encode.toOption.bind Feature.ofWord? with
    | some f => (featuresOfWords rest).map (f :: ·)
    | none => .error (.unknownFeature w)

/-- The list without repetitions, each feature in its first place. -/
def withoutRepetitions : List Feature → List Feature
  | [] => []
  | f :: rest => f :: (withoutRepetitions rest).filter (· != f)

/-- The features. -/
def checkFeatures (default : List Feature) : Option Json → Except Fault (List Feature)
  | none => .ok default
  | some (.array items) =>
    match texts? items with
    | some words => (featuresOfWords words).map withoutRepetitions
    | none => .error .featuresNotTexts
  | some _ => .error .featuresNotTexts

/-- The settings that a JSON value gives, or the first fault in it. -/
def ofJson : Json → Except Fault LooseSettings
  | .object members => do
    let default : LooseSettings := .ofSettings {}
    let given (key : LooseText) := members.lookup key
    checkKeys "" keys members
    let indent ← checkIndent default.indent (given "indent")
    let unknownType ← checkText "unknown_type" default.unknownType (given "unknown_type")
    let stableHash ← checkStableHash default.stableHash (given "stable_hash")
    let features ← checkFeatures default.features (given "conformances")
    .ok { indent, unknownType, stableHash, features }
  | _ => .error .notObject

end Settings

end Conformance
