/-!
# Words between separators

A text cut at the characters of a class.  Separators next to each other, or at
an end, make no empty words.
-/

namespace Conformance.Text

/-- A word put in front of others, if it has a character. -/
def consWord : List Char → List (List Char) → List (List Char)
  | [], ws => ws
  | c :: w, ws => (c :: w) :: ws

/-- The characters before the first separator, and the words after it. -/
def leadingWord (sep : Char → Bool) : List Char → List Char × List (List Char)
  | [] => ([], [])
  | c :: cs =>
    let (w, ws) := leadingWord sep cs
    if sep c then ([], consWord w ws) else (c :: w, ws)

/-- The maximal runs of characters that are no separators, in order. -/
def splitWords (sep : Char → Bool) (cs : List Char) : List (List Char) :=
  let (w, ws) := leadingWord sep cs
  consWord w ws

variable {sep : Char → Bool}

theorem splitWords_cons {c : Char} (h : sep c = true) (cs : List Char) :
    splitWords sep (c :: cs) = splitWords sep cs := by
  simp [splitWords, leadingWord, h, consWord]

/-- Only a text of separators has no word. -/
theorem splitWords_eq_nil_iff (cs : List Char) :
    splitWords sep cs = [] ↔ ∀ c ∈ cs, sep c = true := by
  induction cs with
  | nil => simp [splitWords, leadingWord, consWord]
  | cons c cs ih =>
    by_cases hc : sep c
    · simp [splitWords_cons hc, hc, ih]
    · simp [splitWords, leadingWord, consWord, hc]

end Conformance.Text
