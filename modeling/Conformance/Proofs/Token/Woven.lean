import Conformance.Proofs.Token.Piece

/-!
# Values woven into text

Generated code takes values over from a source as they are.  A value may open a comment or a
literal with three quotes that the source never closes, and then what stands behind it in the
generated code must not close it either.

The values that a text takes over stand in it in the order in which they stand in the source
(`Sown`).  So behind a value nothing is closed but by a later value, which stands behind it in
the source, too.  A text is `Woven` if it keeps this up: it is lexed as some lexemes in front
of whatever closes no more than the source does (`Follows`), and along with that it closes no
more either.
-/

namespace Conformance

open Pattern Lexical

/-- What ends in a text, opened far in front of it, ends in another one as well. -/
def Follows (w u : List Char) : Prop := ∀ p ∈ farEnds, p <:+: w → p <:+: u

/-- A text begins with a comma or a line feed, if with anything. -/
def Breaks (w : List Char) : Prop := ∀ c ∈ w.head?, c = ',' ∨ c = '\n'

/-- Phrases stand one behind the other in a text up to its rest.  Each is lexed as its tokens in
front of any text that follows the one behind it. -/
inductive Sown : List (List Token) → (text rest : List Char) → Prop
  | nil {gap rest : List Char} : Sown [] (gap ++ rest) rest
  | cons {v : List Token} {vs : List (List Token)} {gap u rest : List Char}
      (lexes : ∀ w, Breaks w → Follows w u →
        Lexes (Token.stretch v).toList (v.map Token.lexeme) w)
      (others : Sown vs u rest) : Sown (v :: vs) (gap ++ ((Token.stretch v).toList ++ u)) rest

/-- A text with some values of a source in it is lexed as some lexemes. -/
structure Woven (s : String) (ls : List Lexeme) (vs : List (List Token)) : Prop where
  /-- It is lexed as these in front of what follows the source. -/
  lexes : ∀ {u rest w}, Sown vs u rest → Breaks w → Follows w rest → Lexes s.toList ls w
  /-- It follows the source from the values on. -/
  follows : ∀ {u rest w}, Sown vs u rest → Breaks w → Follows w rest → Follows (s.toList ++ w) u

section
variable {s t : String} {ls ms : List Lexeme} {vs ws : List (List Token)}
  {u w gap rest : List Char}

/-! ## Breaks -/

theorem Breaks.halts (h : Breaks w) : Halts w := by
  intro c mem
  rcases h c mem with rfl | rfl <;> decide

theorem Breaks.head?_ne_dot (h : Breaks w) : w.head? ≠ some '.' := by
  intro dot
  rcases h '.' dot with is | is <;> cases is

/-! ## Sources -/

theorem Follows.refl (w : List Char) : Follows w w := fun _ _ part => part

theorem Follows.suffix (h : Follows w rest) (behind : rest <:+ u) : Follows w u :=
  fun p mem part => (h p mem part).trans behind.isInfix

/-- A quiet text in front of a break closes nothing. -/
theorem Follows.quiet_append {x : List Char} (h : Follows w u) (quiet : Quiet x)
    (edge : (∀ c ∈ x.getLast?, halts c = true) ∨ Halts w) : Follows (x ++ w) u := by
  intro p mem part
  have apart : (∀ c ∈ x.getLast?, c ∉ p) ∨ ∀ c ∈ w.head?, c ∉ p :=
    edge.imp (fun last c is => not_farEnd_of_halts (last c is) p mem)
      fun head c is => not_farEnd_of_halts (head c is) p mem
  exact (infix_append_of_edge apart part).elim (fun inside => absurd inside (quiet p mem)) (h p mem)

/-- What follows is kept by a blank or a mark in front. -/
theorem Follows.cons {c : Char} (h : Follows w u) (quiet : Quiet [c]) (stop : halts c = true) :
    Follows (c :: w) u :=
  h.quiet_append quiet (.inl fun _ is => Option.some.inj is ▸ stop)

namespace Sown

theorem suffix (h : Sown vs u rest) : rest <:+ u := by
  induction h with
  | nil => exact List.suffix_append ..
  | cons lexes others ih =>
    exact ih.trans ((List.suffix_append ..).trans (List.suffix_append ..))

theorem widen (h : Sown vs u rest) : Sown vs (gap ++ u) rest := by
  cases h with
  | nil =>
    rw [← List.append_assoc]
    exact .nil
  | cons lexes others =>
    rw [← List.append_assoc]
    exact .cons lexes others

theorem exists_append (h : Sown (vs ++ ws) u rest) : ∃ mid, Sown vs u mid ∧ Sown ws mid rest := by
  induction vs generalizing u with
  | nil =>
    have none : Sown [] u u := @Sown.nil [] u
    exact ⟨u, none, h⟩
  | cons v vs ih =>
    cases h with
    | cons lexes others =>
      obtain ⟨mid, first, second⟩ := ih others
      exact ⟨mid, .cons lexes first, second⟩

/-- Some of the phrases stand one behind the other, too. -/
theorem sublist (h : Sown ws u rest) (part : vs.Sublist ws) : Sown vs u rest := by
  induction part generalizing u with
  | slnil => exact h
  | cons v part ih =>
    cases h with
    | cons lexes others => exact (ih others).widen.widen
  | cons_cons v part ih =>
    cases h with
    | cons lexes others => exact .cons lexes (ih others)

end Sown

/-! ## Woven texts -/

namespace Woven

/-- A quiet text without values. -/
theorem of_quiet (lexes : ∀ w, Breaks w → Lexes s.toList ls w) (quiet : Quiet s.toList) :
    Woven s ls [] where
  lexes _ breaks _ := lexes _ breaks
  follows sown breaks follows :=
    (follows.quiet_append quiet (.inr breaks.halts)).suffix sown.suffix

theorem empty : Woven "" [] [] := .of_quiet (fun _ _ => .done) (.of_chars (by simp) (by simp))

/-- A value. -/
theorem value (v : List Token) : Woven (Token.stretch v) (v.map Token.lexeme) [v] where
  lexes sown breaks follows := by
    cases sown with
    | cons lexes others => exact lexes _ breaks (follows.suffix others.suffix)
  follows sown breaks follows := by
    cases sown with
    | cons lexes others =>
      intro p mem part
      have behind := (follows.suffix others.suffix) p mem
      have apart : ∀ c ∈ (_ : List Char).head?, c ∉ p :=
        fun c is => not_farEnd_of_halts (breaks.halts c is) p mem
      rcases infix_append_of_edge (.inr apart) part with inside | later
      · exact inside.trans ((List.prefix_append ..).isInfix.trans (List.suffix_append ..).isInfix)
      · exact (behind later).trans
          ((List.suffix_append ..).trans (List.suffix_append ..)).isInfix

/-- Two texts on lines of their own. -/
theorem append_line (first : Woven s ls vs) (second : Woven t ms ws) :
    Woven (s ++ "\n" ++ t) (ls ++ ms) (vs ++ ws) := by
  have line (x : List Char) : Breaks ('\n' :: x) := by simp [Breaks]
  have whole : (s ++ "\n" ++ t).toList = s.toList ++ ('\n' :: t.toList) := by
    simp [String.toList_append]
  have quiet : Quiet ['\n'] := .of_chars (by decide) (by decide)
  refine ⟨fun sown breaks follows => ?_, fun sown breaks follows => ?_⟩ <;>
    obtain ⟨mid, sown, sown'⟩ := sown.exists_append
  · have behind := (second.follows sown' breaks follows).cons quiet (by decide)
    have further : Lexes (['\n'] ++ t.toList) ([] ++ ms) _ :=
      (Lexes.blank (by decide)).append (second.lexes sown' breaks follows)
    rw [whole]
    exact (first.lexes sown (line _) behind).append further
  · have behind := (second.follows sown' breaks follows).cons quiet (by decide)
    rw [whole, List.append_assoc]
    exact first.follows sown (line _) behind

/-- Two texts with a blank line between them. -/
theorem append_blank (first : Woven s ls vs) (second : Woven t ms ws) :
    Woven (s ++ "\n\n" ++ t) (ls ++ ms) (vs ++ ws) := by
  have apart := first.append_line (Woven.empty.append_line second)
  have whole : s ++ "\n" ++ ("" ++ "\n" ++ t) = s ++ "\n\n" ++ t := by
    have two : "\n\n" = "\n" ++ "\n" := rfl
    simp only [two, String.empty_append, String.append_assoc]
  rwa [whole] at apart

/-- A text with a comma behind it. -/
theorem comma (h : Woven s ls vs) : Woven (s ++ ",") (ls ++ [⟨.comma, ","⟩]) vs := by
  have breaks (x : List Char) : Breaks (',' :: x) := by simp [Breaks]
  have quiet : Quiet [','] := .of_chars (by decide) (by decide)
  refine ⟨fun sown _ follows => ?_, fun sown _ follows => ?_⟩ <;>
    rw [String.toList_append] <;>
    have behind := follows.cons quiet (by decide)
  · exact (h.lexes sown (breaks _) behind).append (lexes_of_halts (by decide) _)
  · rw [List.append_assoc]
    exact h.follows sown (breaks _) behind

end Woven

theorem Piece.woven (h : Piece s ls) : Woven s ls [] :=
  .of_quiet (fun w breaks => h.lexes w breaks.halts) h.quiet

/-- A lead in front of a text. -/
theorem Lead.append_woven (first : Lead s ls) (second : Woven t ms vs) :
    Woven (s ++ t) (ls ++ ms) vs where
  lexes sown breaks follows := by
    rw [String.toList_append]
    exact (first.lexes _).append (second.lexes sown breaks follows)
  follows sown breaks follows := by
    rw [String.toList_append, List.append_assoc]
    exact (second.follows sown breaks follows).quiet_append first.quiet (.inl first.last)

/-- A piece in front of a text that begins with a blank or a mark. -/
theorem Piece.append_woven (first : Piece s ls) (second : Woven t ms vs) (halts : Halts t.toList) :
    Woven (s ++ t) (ls ++ ms) vs where
  lexes sown breaks follows := by
    rw [String.toList_append]
    exact (first.lexes _ (halts.append breaks.halts)).append (second.lexes sown breaks follows)
  follows sown breaks follows := by
    rw [String.toList_append, List.append_assoc]
    exact (second.follows sown breaks follows).quiet_append first.quiet
      (.inr (halts.append breaks.halts))

/-- Blanks are a lead. -/
theorem lead_of_blanks (blank : ∀ c ∈ s.toList, isSpace c = true) : Lead s [] where
  lexes _ := .blanks blank
  quiet := by
    refine .of_chars (fun mem => ?_) fun mem => ?_ <;> exact absurd (blank _ mem) (by decide)
  last c mem := by simp [halts, blank c (List.mem_of_getLast? mem)]

end

/-! ## Several texts -/

/-- Texts with the values in them are lexed as some lexemes. -/
inductive AllWoven : List String → List Lexeme → List (List Token) → Prop
  | nil : AllWoven [] [] []
  | cons {s : String} {ss : List String} {ls ms : List Lexeme} {vs ws : List (List Token)}
      (first : Woven s ls vs) (others : AllWoven ss ms ws) :
      AllWoven (s :: ss) (ls ++ ms) (vs ++ ws)

namespace AllWoven

variable {s : String} {ss ts : List String} {ls ms : List Lexeme} {vs ws : List (List Token)}

theorem single (h : Woven s ls vs) : AllWoven [s] ls vs := by
  simpa using cons h .nil

theorem append (first : AllWoven ss ls vs) (second : AllWoven ts ms ws) :
    AllWoven (ss ++ ts) (ls ++ ms) (vs ++ ws) := by
  induction first with
  | nil => exact second
  | cons first others ih =>
    rw [List.append_assoc, List.append_assoc]
    exact .cons first ih

/-- Texts are a text, with what keeps two of them apart between each two. -/
theorem intercalate {sep : String}
    (two : ∀ {s t : String} {ls ms : List Lexeme} {vs ws : List (List Token)}, Woven s ls vs →
      Woven t ms ws → Woven (s ++ sep ++ t) (ls ++ ms) (vs ++ ws))
    (h : AllWoven ss ls vs) : Woven (sep.intercalate ss) ls vs := by
  induction h with
  | nil => exact .empty
  | @cons s ss ls ms vs ws first others ih =>
    cases ss with
    | nil =>
      cases others
      simpa using first
    | cons t ts =>
      rw [String.intercalate_cons_cons]
      exact two first ih

end AllWoven

end Conformance
