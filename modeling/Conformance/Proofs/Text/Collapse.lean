import Conformance.Text.Blank
import Mathlib.Data.List.Chain
import Mathlib.Data.List.Infix

/-!
# Collapsed text

A text with each run of blanks made one space.  Squashing a text does this and takes the
blanks at its ends away, so for a text without any there it is the same
(`squash_eq_collapse`).

A text is collapsed part by part, unless a run of blanks goes over the seam
(`collapse_append`).  What has no blanks in it is in the text if it is in the collapsed text
(`infix_of_collapse`).
-/

namespace Conformance.Text

/-- The text with each run of blanks made one space. -/
def collapse : List Char → List Char
  | [] => []
  | c :: cs =>
    if isBlank c then
      if cs.head?.any isBlank then collapse cs else ' ' :: collapse cs
    else c :: collapse cs

section
variable {c : Char} {a b cs : List Char}

theorem collapse_ink (ink : isBlank c = false) : collapse (c :: cs) = c :: collapse cs := by
  simp [collapse, ink]

/-- A blank in front leaves a space in front, which may be that of the next blank. -/
theorem collapse_blank (cs : List Char) (blank : isBlank c = true) :
    collapse (c :: cs) = collapse cs ∨ collapse (c :: cs) = ' ' :: collapse cs := by
  simp only [collapse, blank, if_true]
  split
  · exact .inl rfl
  · exact .inr rfl

theorem head?_collapse_blank (cs : List Char) (blank : isBlank c = true) :
    (collapse (c :: cs)).head? = some ' ' := by
  induction cs generalizing c with
  | nil => simp [collapse, blank]
  | cons d ds ih =>
    by_cases next : isBlank d = true
    · have same : collapse (c :: d :: ds) = collapse (d :: ds) := by
        simp [collapse, blank, next]
      rw [same, ih next]
    · simp [collapse, blank, next]

/-- No run of blanks goes over the seam of two texts. -/
def Seam (a b : List Char) : Prop :=
  (∀ c ∈ a.getLast?, isBlank c = false) ∨ ∀ c ∈ b.head?, isBlank c = false

theorem collapse_append (seam : Seam a b) : collapse (a ++ b) = collapse a ++ collapse b := by
  induction a with
  | nil => rfl
  | cons c a ih =>
    have further : Seam a b := by
      refine seam.imp_left fun last d mem => last d ?_
      rw [Option.mem_def] at mem ⊢
      rw [List.getLast?_cons, mem]
      rfl
    have next : isBlank c = true → (a ++ b).head?.any isBlank = a.head?.any isBlank := by
      intro blank
      cases a with
      | cons d ds => rfl
      | nil =>
        rcases seam with last | first
        · rw [last c rfl] at blank
          cases blank
        · cases b with
          | nil => rfl
          | cons d ds => simp [first d rfl]
    rw [List.cons_append, collapse, collapse, ih further]
    split
    next blank =>
      rw [next blank]
      split <;> rfl
    next => rfl

/-- No run of blanks goes over a character that is not blank. -/
theorem collapse_append_cons (ink : isBlank c = false) :
    collapse (a ++ c :: b) = collapse a ++ c :: collapse b := by
  have seam : Seam a (c :: b) := .inr fun d mem => by
    cases mem
    exact ink
  rw [collapse_append seam, collapse_ink ink]

/-- Up to its first blank a text is kept. -/
theorem exists_blank_behind (cs : List Char) : ∃ front back, cs = front ++ back ∧
    collapse cs = front ++ collapse back ∧ ∀ c ∈ back.head?, isBlank c = true := by
  induction cs with
  | nil => exact ⟨[], [], rfl, rfl, by simp⟩
  | cons c cs ih =>
    cases ink : isBlank c with
    | true => exact ⟨[], c :: cs, rfl, rfl, by simpa using ink⟩
    | false =>
      obtain ⟨front, back, rfl, eq, blank⟩ := ih
      exact ⟨c :: front, back, rfl, by rw [collapse_ink ink, eq]; rfl, blank⟩

/-! ## Tidy texts -/

/-- Not both characters are blank. -/
def Apart (c d : Char) : Prop := isBlank c = true → isBlank d = false

/-- Blanks are single spaces. -/
structure Tidy (cs : List Char) : Prop where
  /-- Only a space is blank. -/
  spaces : ∀ c ∈ cs, isBlank c = true → c = ' '
  /-- No two blanks are next to each other. -/
  apart : cs.IsChain Apart

theorem tidy_nil : Tidy [] := ⟨by simp, .nil⟩

theorem tidy_cons : Tidy (c :: cs) ↔
    (isBlank c = true → c = ' ' ∧ ∀ d ∈ cs.head?, isBlank d = false) ∧ Tidy cs := by
  constructor
  · rintro ⟨spaces, apart⟩
    obtain ⟨first, others⟩ := List.isChain_cons.mp apart
    obtain ⟨here, later⟩ := List.forall_mem_cons.mp spaces
    exact ⟨fun blank => ⟨here blank, fun d mem => first d mem blank⟩, later, others⟩
  · rintro ⟨first, spaces, apart⟩
    exact ⟨List.forall_mem_cons.mpr ⟨fun blank => (first blank).1, spaces⟩,
      List.isChain_cons.mpr ⟨fun d mem blank => (first blank).2 d mem, apart⟩⟩

theorem tidy_collapse (cs : List Char) : Tidy (collapse cs) := by
  induction cs with
  | nil => exact tidy_nil
  | cons c cs ih =>
    unfold collapse
    split
    next blank =>
      split
      next => exact ih
      next last =>
        refine tidy_cons.mpr ⟨fun _ => ⟨rfl, ?_⟩, ih⟩
        cases cs with
        | nil => simp [collapse]
        | cons d ds =>
          have ink : isBlank d = false := by simpa using last
          simpa [collapse_ink ink] using ink
    next ink => exact tidy_cons.mpr ⟨fun blank => absurd blank ink, ih⟩

theorem Tidy.collapse_eq (tidy : Tidy cs) : collapse cs = cs := by
  induction cs with
  | nil => rfl
  | cons c cs ih =>
    obtain ⟨first, others⟩ := tidy_cons.mp tidy
    cases ink : isBlank c with
    | false => rw [collapse_ink ink, ih others]
    | true =>
      obtain ⟨rfl, next⟩ := first ink
      have last : cs.head?.any isBlank = false := by
        cases cs with
        | nil => rfl
        | cons d ds => exact next d rfl
      simp [collapse, ink, last, ih others]

theorem Tidy.of_infix (tidy : Tidy cs) (part : a <:+: cs) : Tidy a :=
  ⟨fun c mem => tidy.spaces c (part.subset mem), tidy.apart.infix part⟩

theorem Tidy.newline_not_mem (tidy : Tidy cs) : '\n' ∉ cs :=
  fun mem => absurd (tidy.spaces _ mem (by decide)) (by decide)

/-! ## Parts of a collapsed text -/

theorem prefix_of_collapse {p : List Char} (ink : ∀ c ∈ p, isBlank c = false)
    (front : p <+: collapse cs) : p <+: cs := by
  induction p generalizing cs with
  | nil => exact List.nil_prefix
  | cons d p ih =>
    have first := ink d List.mem_cons_self
    cases cs with
    | nil => exact absurd (List.prefix_nil.mp front) (List.cons_ne_nil _ _)
    | cons c cs =>
      cases blank : isBlank c with
      | true =>
        have space := head?_collapse_blank cs blank
        obtain ⟨rest, eq⟩ := front
        rw [← eq] at space
        cases space
        exact absurd first (by decide)
      | false =>
        rw [collapse_ink blank] at front
        obtain ⟨rfl, further⟩ := List.cons_prefix_cons.mp front
        exact List.cons_prefix_cons.mpr
          ⟨rfl, ih (fun e mem => ink e (List.mem_cons_of_mem d mem)) further⟩

/-- A part without blanks was in the text before it was collapsed. -/
theorem infix_of_collapse {p : List Char} (ink : ∀ c ∈ p, isBlank c = false)
    (part : p <:+: collapse cs) : p <:+: cs := by
  cases p with
  | nil => exact List.nil_infix
  | cons d p =>
    have first := ink d List.mem_cons_self
    induction cs with
    | nil => exact part
    | cons c cs ih =>
      cases blank : isBlank c with
      | true =>
        refine (ih ?_).trans (List.suffix_cons c cs).isInfix
        rcases collapse_blank cs blank with same | space
        · rwa [same] at part
        · rw [space] at part
          rcases List.infix_cons_iff.mp part with front | behind
          · obtain ⟨rfl, -⟩ := List.cons_prefix_cons.mp front
            exact absurd first (by decide)
          · exact behind
      | false =>
        rw [collapse_ink blank] at part
        rcases List.infix_cons_iff.mp part with front | behind
        · rw [← collapse_ink blank] at front
          exact (prefix_of_collapse ink front).isInfix
        · exact (ih behind).trans (List.suffix_cons c cs).isInfix

end

/-! ## Squashing -/

theorem splitWords_of_not {sep : Char → Bool} {c : Char} (ink : sep c = false) (cs : List Char) :
    splitWords sep (c :: cs) = (c :: (leadingWord sep cs).1) :: (leadingWord sep cs).2 := by
  simp [splitWords, leadingWord, ink, consWord]

theorem intercalate_cons_word (c : Char) (w : List Char) (ws : List (List Char)) :
    List.intercalate [' '] ((c :: w) :: ws) = c :: List.intercalate [' '] (w :: ws) := by
  cases ws with
  | nil => simp
  | cons w' ws => simp [List.intercalate_cons_cons]

/-- Of a text that does not end with a blank, only a space in front is left besides the words. -/
theorem collapse_eq_words {cs : List Char} (last : ∀ c ∈ cs.getLast?, isBlank c = false) :
    collapse cs = (if cs.head?.any isBlank then [' '] else []) ++
      List.intercalate [' '] (words cs) := by
  induction cs with
  | nil => rfl
  | cons c cs ih =>
    have further : ∀ d ∈ cs.getLast?, isBlank d = false := by
      intro d mem
      refine last d ?_
      rw [Option.mem_def] at mem ⊢
      rw [List.getLast?_cons, mem]
      rfl
    have ih := ih further
    cases cs with
    | nil =>
      have ink : isBlank c = false := last c rfl
      simp [collapse, words, splitWords, leadingWord, consWord, ink]
    | cons d ds =>
      cases ink : isBlank c with
      | true =>
        have same : words (c :: d :: ds) = words (d :: ds) := splitWords_cons ink (d :: ds)
        cases next : isBlank d <;> simp_all [collapse]
      | false =>
        have here : words (c :: d :: ds) =
            (c :: (leadingWord isBlank (d :: ds)).1) :: (leadingWord isBlank (d :: ds)).2 :=
          splitWords_of_not ink (d :: ds)
        rw [collapse_ink ink, ih, here, intercalate_cons_word]
        cases next : isBlank d with
        | false =>
          have same : words (d :: ds) =
              (leadingWord isBlank (d :: ds)).1 :: (leadingWord isBlank (d :: ds)).2 := by
            rw [words, splitWords_of_not next]
            simp [leadingWord, next]
          simp [ink, next, same]
        | true =>
          have some : words (d :: ds) ≠ [] := by
            intro none
            have all := (words_eq_nil_iff _).mp none
            have final : (d :: ds).getLast? = (d :: ds).getLast (List.cons_ne_nil d ds) :=
              List.getLast?_eq_some_getLast _
            have blank := all _ (List.mem_of_getLast? final)
            rw [further _ final] at blank
            cases blank
          have empty : (leadingWord isBlank (d :: ds)).1 = [] := by simp [leadingWord, next]
          have same : (leadingWord isBlank (d :: ds)).2 = words (d :: ds) := by
            simp [words, splitWords, leadingWord, next, consWord]
          rw [empty, same]
          cases others : words (d :: ds) with
          | nil => exact absurd others some
          | cons w ws => simp [ink, next, List.intercalate_cons_cons]

/-- Squashing collapses a text without blanks at its ends. -/
theorem squash_eq_collapse {s : String} (first : ∀ c ∈ s.toList.head?, isBlank c = false)
    (last : ∀ c ∈ s.toList.getLast?, isBlank c = false) :
    squash s = String.ofList (collapse s.toList) := by
  have ink : s.toList.head?.any isBlank = false := by
    cases chars : s.toList with
    | nil => rfl
    | cons c cs =>
      rw [chars] at first
      exact first c rfl
  rw [squash, collapse_eq_words last, ink]
  rfl

/-- Squashing keeps a text without blanks at its ends if this is tidy. -/
theorem squash_eq_self_iff {s : String} (first : ∀ c ∈ s.toList.head?, isBlank c = false)
    (last : ∀ c ∈ s.toList.getLast?, isBlank c = false) : squash s = s ↔ Tidy s.toList := by
  rw [squash_eq_collapse first last]
  constructor
  · intro same
    rw [← same, String.toList_ofList]
    exact tidy_collapse _
  · intro tidy
    rw [tidy.collapse_eq, String.ofList_toList]

end Conformance.Text
