import Conformance.Code.Extension
import Conformance.Settings
import Mathlib.Data.List.Basic

/-!
# Code without its indentation

A text is compared with another line by line, without the spaces in front of a line.  What is
put in a line may go over several lines itself, so lines are told by the line feeds of the
text, and not by the `Line` they come from.

Only the front of a `Line` hangs on the unit of indentation, and that front is made of spaces.
So printed code has the same lines under any two settings (`Line.unindented_renderAll`,
`unindented_renderBlock`).
-/

namespace Conformance

/-! ## Texts -/

namespace Text

/-- The lines of a text without the spaces in front of them. -/
def unindented (text : String) : List (List Char) :=
  (text.toList.splitOn '\n').map (·.dropWhile (· == ' '))

theorem unindented_append_lineFeed (a b : String) :
    unindented (a ++ "\n" ++ b) = unindented a ++ unindented b := by
  have chars : (a ++ "\n" ++ b).toList = a.toList ++ '\n' :: b.toList := by simp
  rw [unindented, chars, List.splitOn_append_cons_self, List.map_append]
  rfl

theorem unindented_append_blankLine (a b : String) :
    unindented (a ++ "\n\n" ++ b) = unindented a ++ unindented "" ++ unindented b := by
  have twice : a ++ "\n\n" ++ b = a ++ "\n" ++ "" ++ "\n" ++ b := by
    simp [String.append_assoc]
  rw [twice, unindented_append_lineFeed, unindented_append_lineFeed]

/-- A space in front of a text belongs to its first line. -/
theorem unindented_space_append (s : String) : unindented (" " ++ s) = unindented s := by
  have chars : (" " ++ s).toList = ' ' :: s.toList := by simp
  obtain ⟨line, lines, split⟩ := List.exists_cons_of_ne_nil
    (List.splitOnP_ne_nil (· == '\n') s.toList)
  have later : (' ' :: s.toList).splitOn '\n' = (' ' :: line) :: lines := by
    rw [List.splitOn_eq_splitOnP, List.splitOnP_cons_eq_if_modifyHead, split]
    rfl
  rw [unindented, unindented, chars, later, List.splitOn_eq_splitOnP, split]
  rfl

theorem unindented_spaces_append (n : Nat) (s : String) :
    unindented (String.ofList (List.replicate n ' ') ++ s) = unindented s := by
  induction n with
  | zero => simp
  | succ n ih =>
    have first : String.ofList (List.replicate (n + 1) ' ') ++ s =
        " " ++ (String.ofList (List.replicate n ' ') ++ s) := by
      rw [List.replicate_succ, String.ofList_cons, ← String.append_assoc]
      rfl
    rw [first, unindented_space_append, ih]

/-- Texts in a row have the lines of each if what is between two texts takes no part in them. -/
theorem unindented_intercalate {sep : String} {inner : List (List Char)}
    (between : ∀ a b, unindented (a ++ sep ++ b) = unindented a ++ inner ++ unindented b)
    {ss ts : List String} (same : ss.map unindented = ts.map unindented) :
    unindented (sep.intercalate ss) = unindented (sep.intercalate ts) := by
  induction ss generalizing ts with
  | nil =>
    obtain rfl := List.map_eq_nil_iff.mp same.symm
    rfl
  | cons s ss ih =>
    obtain ⟨t, ts, rfl, first, others⟩ := List.map_eq_cons_iff.mp same.symm
    cases ss with
    | nil =>
      obtain rfl := List.map_eq_nil_iff.mp others
      simpa using first.symm
    | cons s' ss =>
      obtain ⟨t', ts, rfl, -, -⟩ := List.map_eq_cons_iff.mp others
      rw [String.intercalate_cons_cons, String.intercalate_cons_cons, between, between, first,
        ih others.symm]

end Text

open Text

/-! ## Lines -/

namespace Line

/-- What is on a line behind its indentation. -/
def content : Line → String
  | text _ s => s
  | blank => ""

theorem unindented_render (s : Settings) (l : Line) :
    unindented (l.render s.indentUnit) = unindented l.content := by
  cases l with
  | blank => rfl
  | text depth t =>
    induction depth with
    | zero => simp [render, content]
    | succ depth ih =>
      have deeper := render_nested_text s.indentUnit depth t
      rw [nested] at deeper
      rw [deeper, Settings.indentUnit, unindented_spaces_append]
      exact ih

/-- The lines of printed code do not hang on the indentation. -/
theorem unindented_renderAll (s s' : Settings) (lines : List Line) :
    unindented (renderAll s.indentUnit lines) = unindented (renderAll s'.indentUnit lines) := by
  have between (a b : String) :
      unindented (a ++ "\n" ++ b) = unindented a ++ [] ++ unindented b := by
    simpa using unindented_append_lineFeed a b
  refine unindented_intercalate between ?_
  simp only [List.map_map]
  refine List.map_congr_left fun l _ => ?_
  exact (unindented_render s l).trans (unindented_render s' l).symm

end Line

/-- Texts that are joined to one block. -/
theorem unindented_joined {ss ts : List String} (same : ss.map unindented = ts.map unindented) :
    unindented ("\n\n".intercalate ss) = unindented ("\n\n".intercalate ts) :=
  unindented_intercalate unindented_append_blankLine same

end Conformance
