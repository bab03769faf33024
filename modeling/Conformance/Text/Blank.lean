import Conformance.Text.Words

/-!
# Blank characters

White space in the wide sense of Unicode.  A character is *blank* if it has the
White_Space property or is one of the four information separators `U+001C` to
`U+001F`.  The zero-width space and the byte order mark are not blank.

Three operations on text are built on it: the words of a text, the text with
its blanks collapsed (`squash`), and the text without its outer blanks
(`trim`).  A text of which `isBlank` holds everywhere has no word
(`words_eq_nil_iff`).
-/

namespace Conformance.Text

/-- White space in the wide sense, information separators included. -/
def isBlank (c : Char) : Bool :=
  let n := c.toNat
  (9 ≤ n && n ≤ 13) || (28 ≤ n && n ≤ 32) || n == 0x85 || n == 0xA0 || n == 0x1680 ||
    (0x2000 ≤ n && n ≤ 0x200A) || n == 0x2028 || n == 0x2029 || n == 0x202F || n == 0x205F ||
    n == 0x3000

/-- Every character that the standard library takes for white space is blank. -/
theorem isBlank_of_isWhitespace {c : Char} (h : c.isWhitespace = true) : isBlank c = true := by
  simp only [Char.isWhitespace, Bool.or_eq_true, decide_eq_true_eq] at h
  rcases h with ((rfl | rfl) | rfl) | rfl <;> decide

/-! ## Words -/

/-- The maximal runs of characters that are not blank, in order. -/
def words (cs : List Char) : List (List Char) := splitWords isBlank cs

/-- Only a text of blanks has no word. -/
theorem words_eq_nil_iff (cs : List Char) : words cs = [] ↔ ∀ c ∈ cs, isBlank c = true :=
  splitWords_eq_nil_iff cs

/-- The words of a text, joined by single spaces. -/
def squash (s : String) : String :=
  String.ofList (List.intercalate [' '] (words s.toList))

/-- The text without the blanks at its two ends. -/
def trim (s : String) : String :=
  String.ofList (((s.toList.dropWhile isBlank).reverse.dropWhile isBlank).reverse)

end Conformance.Text
