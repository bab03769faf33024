/-!
# What to generate

Five features can be asked for: four conformances and the memberwise
initializer.  Each has a word, under which it is known in configuration files.

Hashing builds on equality, so a request for either kind of hash asks for
equality too.
-/

namespace Conformance

/-- Something to generate. -/
inductive Feature where
  | codable | equatable | hashable | stableHashable | memberwiseInit
deriving DecidableEq, Repr

namespace Feature

/-- The features in their order. -/
def all : List Feature := [codable, equatable, hashable, stableHashable, memberwiseInit]

/-- The word of a feature. -/
def word : Feature → String
  | codable => "codable"
  | equatable => "equatable"
  | hashable => "hashable"
  | stableHashable => "stable-hashable"
  | memberwiseInit => "memberwise-init"

/-- The feature of a word. -/
def ofWord? (w : String) : Option Feature := all.find? fun f => f.word == w

@[simp] theorem ofWord?_word (f : Feature) : ofWord? f.word = some f := by
  cases f <;> decide

end Feature

/-- A choice of features. -/
structure Options where
  /-- Coding and decoding. -/
  serialization : Bool := false
  /-- Comparison. -/
  equality : Bool := false
  /-- Hashing for one run of a program. -/
  hashing : Bool := false
  /-- Hashing that stays the same between runs. -/
  stableHashing : Bool := false
  /-- The memberwise initializer. -/
  memberwiseInit : Bool := false
deriving DecidableEq, Repr

namespace Options

/-- The features of a list. -/
def ofFeatures (fs : List Feature) : Options where
  serialization := fs.contains .codable
  equality := fs.contains .equatable
  hashing := fs.contains .hashable
  stableHashing := fs.contains .stableHashable
  memberwiseInit := fs.contains .memberwiseInit

/-- The features that a list of words names.  Other words are passed over. -/
def ofWords (words : List String) : Options := ofFeatures (words.filterMap Feature.ofWord?)

/-- All features. -/
def everything : Options := ofFeatures Feature.all

/-- Whether equality is asked for, by itself or for a hash. -/
def wantsEquality (o : Options) : Bool := o.equality || o.hashing || o.stableHashing

/-- Whether nothing is asked for. -/
def isEmpty (o : Options) : Bool :=
  !(o.serialization || o.wantsEquality || o.memberwiseInit)

end Options

end Conformance
