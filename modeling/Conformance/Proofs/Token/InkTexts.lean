import Conformance.Proofs.Token.Squashed

/-!
# Texts by their ink

The *ink* of a text is what is left of it without its blanks.  A text in which no comment begins
has the ink of its lexemes (`Lexes.ink_eq`), for only blanks stand between them.

Of the fronts of a text that do not end in a blank, there is one with a given ink
(`eq_of_ink`).  So the place of tokens in such a text is known as soon as their texts are
(`Stand.eq_of_ink`), and so is their stretch (`Stand.stretch_eq`).
-/

namespace Conformance

open Pattern Text

/-- The characters that are not blank. -/
def ink (cs : List Char) : List Char := cs.filter fun c => !isBlank c

section
variable {a b x y u v : List Char}

@[simp] theorem ink_append (a b : List Char) : ink (a ++ b) = ink a ++ ink b :=
  List.filter_append a b

theorem ink_eq_nil_iff : ink a = [] ↔ ∀ c ∈ a, isBlank c = true := by
  simp [ink]

/-! ## Lexemes -/

/-- A text without comments has the ink of its lexemes. -/
theorem Lexes.ink_eq {ls : List Lexeme} {rest : List Char} (h : Lexes a ls rest)
    (slash : '/' ∉ a) : ink a = ls.flatMap fun l => ink l.text.toList := by
  induction h with
  | done => rfl
  | @turn text a rest o ls first others ih =>
    rw [List.mem_append, not_or] at slash
    rw [ink_append, ih slash.2, List.flatMap_append]
    congr 1
    cases o with
    | some l =>
      have same : l.text.toList = text := by rw [first.text_eq, String.toList_ofList]
      rw [Option.toList_some, List.flatMap_singleton, same]
    | none =>
      rw [Option.toList_none, List.flatMap_nil, ink_eq_nil_iff]
      cases first with
      | blank space =>
        intro c mem
        obtain rfl := List.mem_singleton.mp mem
        exact isBlank_of_isSpace space
      | comment found => exact absurd (List.mem_of_head? (head?_of_front?_comment found)) slash.1

/-! ## Fronts -/

theorem eq_nil_of_ink (same : ink (x ++ a) = ink x)
    (last : ∀ c ∈ (x ++ a).getLast?, isBlank c = false) : a = [] := by
  by_contra some
  rw [ink_append, List.append_right_eq_self, ink_eq_nil_iff] at same
  rw [List.getLast?_append_of_ne_nil x some] at last
  have final := List.getLast?_eq_some_getLast some
  have blank := same _ (List.mem_of_getLast? final)
  rw [last _ final] at blank
  cases blank

/-- Two fronts of a text are the same if they have the same ink and neither ends in a blank. -/
theorem eq_of_ink (whole : x ++ u = y ++ v) (same : ink x = ink y)
    (first : ∀ c ∈ x.getLast?, isBlank c = false)
    (second : ∀ c ∈ y.getLast?, isBlank c = false) : x = y := by
  rcases List.append_eq_append_iff.mp whole with ⟨a, rfl, -⟩ | ⟨a, rfl, -⟩
  · rw [eq_nil_of_ink same.symm second, List.append_nil]
  · rw [eq_nil_of_ink same first, List.append_nil]

theorem dropWhile_blanks (blank : ∀ c ∈ a, isBlank c = true)
    (starts : ∀ c ∈ x.head?, isBlank c = false) : (a ++ x).dropWhile isBlank = x := by
  rw [List.dropWhile_append_of_pos blank]
  cases x with
  | nil => rfl
  | cons c cs => exact List.dropWhile_cons_of_neg (by simp [starts c rfl])

/-! ## Tokens -/

namespace Stand

variable {ts : List Token}

/-- Tokens stand in the front of a text that has their ink. -/
theorem eq_of_ink (h : Stand ts x u) (ends : EndsText ts) (slash : '/' ∉ x)
    (whole : x ++ u = y ++ v) (same : ink y = ts.flatMap fun t => ink t.text.toList)
    (last : ∀ c ∈ y.getLast?, isBlank c = false) : x = y := by
  refine Conformance.eq_of_ink whole ?_ (h.ink_last ends) last
  rw [h.lexes.ink_eq slash, List.flatMap_map, same]
  rfl

/-- The stretch of tokens is what they stand in, without the blanks in front. -/
theorem stretch_eq (h : Stand ts (a ++ x) u) (slash : '/' ∉ a ++ x)
    (blank : ∀ c ∈ a, isBlank c = true) (starts : ∀ c ∈ x.head?, isBlank c = false)
    (some : x ≠ []) : (Token.stretch ts).toList = x := by
  generalize whole : a ++ x = text at h slash
  cases h with
  | nil => exact absurd (List.append_eq_nil_iff.mp whole).2 some
  | @cons t ts b rest layout here others =>
    rw [List.mem_append, not_or] at slash
    have blank' := ink_eq_nil_iff.mp (layout.ink_eq slash.1)
    have starts' : ∀ c ∈ (t.text.toList ++ b).head?, isBlank c = false := by
      rw [List.head?_append_of_ne_nil _ here.ne_nil]
      exact here.ink_head
    rw [stretch_cons others, ← dropWhile_blanks blank starts, whole,
      dropWhile_blanks blank' starts']

end Stand

end

end Conformance
