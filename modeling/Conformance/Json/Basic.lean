import Conformance.Text.Loose

/-!
# JSON values

A JSON value keeps two things that its text shows and that a number alone would
not: whether a number was written as an integer, and the order of the members
of an object.  The keys of an object are distinct, which `Json.setMember` keeps:
a member given twice has its last value in its first place.  Its texts are loose,
since JSON can write half of a surrogate pair.
-/

namespace Conformance

/-- A JSON value. -/
inductive Json where
  | null
  | bool (value : Bool)
  /-- A number written without fraction and exponent. -/
  | integer (value : Int)
  /-- A number with a fraction or an exponent, or one that is not finite, as written. -/
  | real (literal : String)
  | string (value : LooseText)
  | array (items : List Json)
  | object (members : List (LooseText × Json))
deriving Inhabited

namespace Json

/-- Sets a member: in its place if the key is there, else behind the others. -/
def setMember (key : LooseText) (value : Json) :
    List (LooseText × Json) → List (LooseText × Json)
  | [] => [(key, value)]
  | (k, v) :: rest => if k = key then (k, value) :: rest else (k, v) :: setMember key value rest

/-- The member of an object. -/
def get? (key : LooseText) : Json → Option Json
  | object members => members.lookup key
  | _ => none

/-- A text that may be missing. -/
def ofText? : Option String → Json
  | some s => string s
  | none => null

/-- Setting a member changes that member and no other. -/
theorem lookup_setMember (key k : LooseText) (value : Json) (ms : List (LooseText × Json)) :
    (setMember key value ms).lookup k = if k = key then some value else ms.lookup k := by
  induction ms with
  | nil =>
    by_cases h : k = key
    · simp [setMember, h]
    · simp [setMember, List.lookup_cons, h, beq_eq_false_iff_ne.2 h]
  | cons m ms ih =>
    obtain ⟨j, v⟩ := m
    by_cases hj : j = key
    · subst hj
      by_cases h : k = j
      · simp [setMember, h]
      · simp [setMember, List.lookup_cons, h, beq_eq_false_iff_ne.2 h]
    · by_cases h : k = j
      · subst h; simp [setMember, hj]
      · simp [setMember, List.lookup_cons, hj, beq_eq_false_iff_ne.2 h, ih]

end Json

end Conformance
