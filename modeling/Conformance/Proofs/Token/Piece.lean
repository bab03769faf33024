import Conformance.Proofs.Token.Collapsed

/-!
# Pieces of text

Generated code is put together from fixed texts and from names and phrases between them.  A
`Piece` is a text that is lexed as some lexemes in front of whatever begins with a blank or a
mark, and a `Lead` one that is so in front of anything, because it ends in a blank or a mark.
Pieces and leads are put behind each other, and their lexemes along with them.

Both are *quiet*: they neither end a comment nor a literal with three quotes, so no text in
front of them is lexed in another way because of them.
-/

namespace Conformance

open Pattern Lexical

/-! ## Quiet texts -/

/-- The marks that end what may have been opened far in front. -/
def farEnds : List (List Char) := [['*', '/'], ['"', '"', '"']]

/-- A text ends nothing that may have been opened far in front. -/
def Quiet (a : List Char) : Prop := ∀ p ∈ farEnds, ¬p <:+: a

instance (a : List Char) : Decidable (Quiet a) :=
  inferInstanceAs (Decidable (∀ p ∈ farEnds, ¬p <:+: a))

theorem not_farEnd_of_halts {c : Char} (h : halts c = true) : ∀ p ∈ farEnds, c ∉ p := by
  have others := (not_of_halts h).2.2.2.1
  simp only [List.mem_cons, not_or] at others
  simp [farEnds, others]

theorem infix_append_of_edge {p x y : List Char}
    (edge : (∀ c ∈ x.getLast?, c ∉ p) ∨ ∀ c ∈ y.head?, c ∉ p) (h : p <:+: x ++ y) :
    p <:+: x ∨ p <:+: y := by
  rcases List.infix_append_iff.mp h with left | right | ⟨a, b, rfl, suffix, front⟩
  · exact .inl left
  · exact .inr right
  · rcases edge with out | out
    · cases last : a.getLast? with
      | none =>
        obtain rfl := List.getLast?_eq_none_iff.mp last
        exact .inr front.isInfix
      | some c =>
        obtain ⟨before, rfl⟩ := suffix
        have same : (before ++ a).getLast? = some c := by rw [List.getLast?_append, last]; rfl
        exact absurd (List.mem_append_left b (List.mem_of_getLast? last)) (out c same)
    · cases b with
      | nil => exact .inl (by simpa using suffix.isInfix)
      | cons c cs =>
        obtain ⟨behind, rfl⟩ := front
        exact absurd (List.mem_append_right a List.mem_cons_self) (out c rfl)

namespace Quiet

variable {x y : List Char}

theorem of_chars (first : '*' ∉ x) (second : '"' ∉ x) : Quiet x := by
  intro p mem part
  rcases List.mem_cons.mp mem with rfl | mem
  · exact first (part.subset List.mem_cons_self)
  · obtain rfl := List.mem_singleton.mp mem
    exact second (part.subset List.mem_cons_self)

theorem append_halts (first : Quiet x) (second : Quiet y) (h : Halts y) : Quiet (x ++ y) := by
  intro p mem part
  have edge : ∀ c ∈ y.head?, c ∉ p := fun c head => not_farEnd_of_halts (h c head) p mem
  exact (infix_append_of_edge (.inr edge) part).elim (first p mem) (second p mem)

theorem append_last (first : Quiet x) (second : Quiet y)
    (last : ∀ c ∈ x.getLast?, halts c = true) : Quiet (x ++ y) := by
  intro p mem part
  have edge : ∀ c ∈ x.getLast?, c ∉ p := fun c is => not_farEnd_of_halts (last c is) p mem
  exact (infix_append_of_edge (.inl edge) part).elim (first p mem) (second p mem)

end Quiet

/-! ## Pieces and leads -/

/-- A text that is lexed as some lexemes in front of what begins with a blank or a mark. -/
structure Piece (s : String) (ls : List Lexeme) : Prop where
  /-- It is lexed as these. -/
  lexes : ∀ w, Halts w → Lexes s.toList ls w
  /-- It is quiet. -/
  quiet : Quiet s.toList

/-- A text that is lexed as some lexemes whatever follows, for it ends in a blank or a mark. -/
structure Lead (s : String) (ls : List Lexeme) : Prop where
  /-- It is lexed as these. -/
  lexes : ∀ w, Lexes s.toList ls w
  /-- It is quiet. -/
  quiet : Quiet s.toList
  /-- It ends in a blank or a mark. -/
  last : ∀ c ∈ s.toList.getLast?, halts c = true

section
variable {s t : String} {ls ms : List Lexeme}

theorem Halts.append {a w : List Char} (first : Halts a) (second : Halts w) : Halts (a ++ w) := by
  cases a with
  | nil => exact second
  | cons c cs => exact first

theorem Piece.append (first : Piece s ls) (second : Piece t ms) (h : Halts t.toList) :
    Piece (s ++ t) (ls ++ ms) where
  lexes w behind := by
    rw [String.toList_append]
    exact (first.lexes _ (h.append behind)).append (second.lexes w behind)
  quiet := by
    rw [String.toList_append]
    exact first.quiet.append_halts second.quiet h

namespace Lead

theorem piece (h : Lead s ls) : Piece s ls := ⟨fun w _ => h.lexes w, h.quiet⟩

theorem append (first : Lead s ls) (second : Lead t ms) : Lead (s ++ t) (ls ++ ms) where
  lexes w := by
    rw [String.toList_append]
    exact (first.lexes _).append (second.lexes w)
  quiet := by
    rw [String.toList_append]
    exact first.quiet.append_last second.quiet first.last
  last := by
    rw [String.toList_append, List.getLast?_append]
    intro c mem
    rcases Option.or_eq_some_iff.mp mem with mem | ⟨-, mem⟩
    · exact second.last c mem
    · exact first.last c mem

theorem append_piece (first : Lead s ls) (second : Piece t ms) : Piece (s ++ t) (ls ++ ms) where
  lexes w h := by
    rw [String.toList_append]
    exact (first.lexes _).append (second.lexes w h)
  quiet := by
    rw [String.toList_append]
    exact first.quiet.append_last second.quiet first.last

end Lead

theorem Piece.append_lead (first : Piece s ls) (second : Lead t ms) (h : Halts t.toList)
    (some : t ≠ "") : Lead (s ++ t) (ls ++ ms) where
  lexes w := by
    have behind : Halts (t.toList ++ w) := by
      cases chars : t.toList with
      | nil => exact absurd (String.toList_eq_nil_iff.mp chars) some
      | cons c cs =>
        rw [chars] at h
        exact h
    rw [String.toList_append]
    exact (first.lexes _ behind).append (second.lexes w)
  quiet := by
    rw [String.toList_append]
    exact first.quiet.append_halts second.quiet h
  last := by
    rw [String.toList_append, List.getLast?_append_of_ne_nil _
      fun none => some (String.toList_eq_nil_iff.mp none)]
    exact second.last

end

/-! ## Fixed texts -/

theorem head?_of_front?_comment {text rest : List Char}
    (found : front? (text ++ rest) = some (.comment, text.length)) : text.head? = some '/' := by
  obtain ⟨p, mem, matches'⟩ := exists_pattern found
  obtain rfl : p = Pattern.comment := by simpa [patterns] using mem
  cases text with
  | nil => exact absurd (comment_bounds matches').1 (by simp)
  | cons c cs =>
    by_cases slash : c = '/'
    · rw [slash]
      rfl
    · rw [List.cons_append, comment_eq_none slash] at matches'
      cases matches'

theorem Turn.head?_of_directive {text rest : List Char} {l : Lexeme}
    (h : Turn text (some l) rest) (is : l.kind = .directive) : text.head? = some '#' := by
  cases h with
  | @angle c _ first =>
    have kinds : ∀ k ∈ Kind.ofAngle? c, k ≠ .directive := by
      unfold Kind.ofAngle?
      split <;> simp
    obtain ⟨k, some⟩ := Option.isSome_iff_exists.mp first
    have kind : (Kind.ofAngle? c).getD .operator = .directive := is
    rw [some] at kind
    exact absurd kind (kinds k some)
  | @token _ _ l k found kind =>
    obtain rfl : k = .directive := is
    obtain rfl := Lexical.eq_directive kind
    obtain ⟨p, mem, matches'⟩ := exists_pattern found
    obtain rfl : p = Pattern.directive := by simpa [patterns] using mem
    cases text with
    | nil => exact absurd (directive_bounds matches').1 (by simp)
    | cons c cs =>
      by_cases pound : c = '#'
      · rw [pound]
        rfl
      · rw [List.cons_append, directive_eq_none pound] at matches'
        cases matches'

/-- A text without pound signs, slashes and quotes is lexed alike at the end of a source and in
front of what begins with a blank or a mark. -/
theorem Lexes.relocate_near {a u w : List Char} {ls : List Lexeme} (h : Lexes a ls u)
    (near : ∀ c ∈ a, opensFar c = false) (halts : Halts w)
    (dot : ∀ l ∈ ls, l.kind = .number → w.head? ≠ some '.') (plain : StartsPlain u) :
    Lexes a ls w := by
  induction h with
  | done => exact .done
  | @turn text a rest o ls first others ih =>
    have further := ih (fun c mem => near c (List.mem_append_right text mem))
      (fun l mem => dot l (List.mem_append_right _ mem)) plain
    have start : ∀ c ∈ text.head?, opensFar c = false :=
      fun c mem => near c (List.mem_append_left a (List.mem_of_head? mem))
    refine .turn ?_ further
    cases o with
    | none =>
      cases first with
      | blank space => exact .blank space
      | comment found => exact absurd (start '/' (head?_of_front?_comment found)) (by decide)
    | some l =>
      refine first.relocate halts (fun c mem far => ?_) (fun l' mem => ?_)
        (.inr ⟨l, rfl, fun is => ?_⟩)
        (others.startsPlain plain)
      · rw [start c mem] at far
        cases far
      · cases mem
        exact dot l (by simp)
      · exact absurd (start '#' (first.head?_of_directive is)) (by decide)

/-- The lexemes of a text by itself. -/
def lexemesIn (cs : List Char) : List Lexeme := (lex cs).delivered.map Token.lexeme

/-- Whether a text is lexed without stray characters, and has no character on which the lexing of
what is far behind or in front may hang. -/
def isNear (cs : List Char) : Bool :=
  (lex cs).stray?.isNone && cs.all fun c => !opensFar c && c != '*'

/-- The lexeme of a mark, none of a blank. -/
def markLexemes (c : Char) : List Lexeme :=
  (Kind.ofMark? c).toList.map (⟨·, String.singleton c⟩)

/-- The lexemes of a text that ends in a blank or a mark. -/
def leadLexemes (s : String) : List Lexeme :=
  lexemesIn s.toList.dropLast ++ (s.toList.getLast?.map markLexemes).getD []

/-- Whether a fixed text is a lead. -/
def isLead (s : String) : Bool :=
  isNear s.toList.dropLast && s.toList.getLast?.any fun c =>
    halts c && (c != '.' || (lexemesIn s.toList.dropLast).all (·.kind != .number))

theorem lexes_of_halts {c : Char} (h : halts c = true) (w : List Char) :
    Lexes [c] (markLexemes c) w := by
  cases kind : Kind.ofMark? c with
  | none =>
    have space : isSpace c = true := by simpa [halts, isMark, kind] using h
    simp only [markLexemes, kind, Option.toList, List.map_nil]
    exact .blanks (by simpa using space)
  | some k =>
    have found : front? ([c] ++ w) = some (.mark, [c].length) :=
      front?_mark (by rw [isMark, kind]; rfl)
    have turn : Turn [c] (some ⟨k, String.ofList [c]⟩) w := .token found kind (by simp)
    simp only [markLexemes, kind, Option.toList, List.map_cons, List.map_nil]
    exact .single turn

theorem near_of_isNear {cs : List Char} (h : isNear cs = true) :
    Lexes cs (lexemesIn cs) [] ∧ (∀ c ∈ cs, opensFar c = false) ∧ Quiet cs := by
  simp only [isNear, Bool.and_eq_true, List.all_eq_true, Option.isNone_iff_eq_none, Bool.not_eq_true',
    bne_iff_ne] at h
  refine ⟨lexes_delivered h.1, fun c mem => (h.2 c mem).1, .of_chars ?_ ?_⟩
  · exact fun mem => absurd rfl (h.2 _ mem).2
  · exact fun mem => absurd (h.2 _ mem).1 (by decide)

/-- A fixed text is a lead if it looks like one. -/
theorem lead_of_isLead {s : String} (h : isLead s = true) : Lead s (leadLexemes s) := by
  cases is : s.toList.getLast? with
  | none => simp [isLead, is] at h
  | some c =>
    have whole : s.toList = s.toList.dropLast ++ [c] :=
      (List.dropLast_append_getLast? c (by rw [is]; rfl)).symm
    simp only [isLead, is, Option.any_some, Bool.and_eq_true, Bool.or_eq_true, bne_iff_ne,
      List.all_eq_true] at h
    obtain ⟨near, ends, dot⟩ := h
    obtain ⟨lexes, chars, quiet⟩ := near_of_isNear near
    have halts' (w : List Char) : Halts (c :: w) := by simpa [Halts] using ends
    have last : Quiet [c] := by
      refine .of_chars (fun mem => ?_) fun mem => ?_ <;> obtain rfl := List.mem_singleton.mp mem <;>
        exact absurd ends (by decide)
    have lexemes : leadLexemes s = lexemesIn s.toList.dropLast ++ markLexemes c := by
      simp [leadLexemes, is]
    refine ⟨fun w => ?_, ?_, fun d mem => ?_⟩
    · rw [whole, lexemes]
      have front : Lexes s.toList.dropLast (lexemesIn s.toList.dropLast) (c :: w) :=
        lexes.relocate_near chars (halts' w)
          (fun l mem number eq => ?_) (by simp [StartsPlain])
      · exact front.append (lexes_of_halts ends w)
      · cases eq
        exact dot.elim (absurd rfl) fun none => none l mem number
    · rw [whole]
      exact quiet.append_halts last (halts' [])
    · obtain rfl := Option.some.inj (is.symm.trans mem)
      exact ends

/-! ## Names -/

theorem name_of_isNameStart {c : Char} (start : isNameStart c = true) (cs : List Char) :
    Pattern.name (c :: cs) = plainName (c :: cs) := by
  unfold Pattern.name
  split
  next eq =>
    cases eq
    cases start
  next eq =>
    cases eq
    cases start
  next => rfl

theorem IsPlainName.piece {s : String} (plain : IsPlainName s) :
    Piece s [⟨Kind.ofWord s, s⟩] := by
  obtain ⟨c, cs, chars, start, parts⟩ := plain.exists_cons
  have word : opensWord c = true := by simp [opensWord, start]
  have part : ∀ d ∈ c :: cs, isNamePart d = true :=
    List.forall_mem_cons.mpr ⟨isNamePart_of_isNameStart start, parts⟩
  have near : ∀ d ∈ c :: cs, opensFar d = false ∧ d ≠ '*' := by
    intro d mem
    have others : ∀ e ∈ ['#', '/', '"', '*'], isNamePart e = false :=
      List.all_iff_forall_prop.mp (by decide)
    have is := part d mem
    constructor
    · refine Bool.eq_false_iff.mpr fun far => ?_
      obtain (rfl | rfl) | rfl : (d = '#' ∨ d = '/') ∨ d = '"' := by simpa [opensFar] using far
      all_goals exact absurd is (by decide)
    · rintro rfl
      exact absurd is (by decide)
  have found : front? (c :: cs ++ []) = some (.word, (c :: cs).length) := by
    have whole : plainName (c :: cs) = some (c :: cs).length := by
      rw [← chars, String.length_toList]
      exact plain
    rw [List.append_nil, front?_word word, name_of_isNameStart start, whole]
    rfl
  have same : String.ofList (c :: cs) = s := by rw [← chars, String.ofList_toList]
  have alone : Lexes (c :: cs) [⟨Kind.ofWord s, s⟩] [] := by
    have turn : Turn (c :: cs) (some ⟨Kind.ofWord s, s⟩) [] := by
      have token := Turn.token (k := Kind.ofWord s) found (by simp [kind?, same]) (by simp)
      rwa [same] at token
    exact .single turn
  refine ⟨fun w h => ?_, ?_⟩
  · rw [chars]
    refine alone.relocate_near (fun d mem => (near d mem).1) h (fun l mem number => ?_)
      (by simp [StartsPlain])
    obtain rfl := List.mem_singleton.mp mem
    have kinds : ∀ p ∈ Kind.reserved, p.2 ≠ .number := by decide
    rcases Kind.ofWord_cases s with is | mem
    · cases is.symm.trans number
    · exact absurd number (kinds _ mem)
  · rw [chars]
    exact .of_chars (fun mem => (near _ mem).2 rfl) fun mem => absurd (near _ mem).1 (by decide)

/-! ## Literals -/

/-- A text that can stand between the quotes of a literal as it is. -/
structure IsLiteralText (cs : List Char) : Prop where
  /-- There is some text. -/
  ne_nil : cs ≠ []
  /-- Nothing in it ends the literal, ends its line, is escaped or ends a comment. -/
  chars : ∀ c ∈ cs, c ≠ '"' ∧ c ≠ '\\' ∧ c ≠ '\n' ∧ c ≠ '*'

theorem quoteEnd_literal {cs : List Char} (h : ∀ c ∈ cs, c ≠ '"' ∧ c ≠ '\\' ∧ c ≠ '\n' ∧ c ≠ '*')
    (w : List Char) : quoteEnd (cs ++ '"' :: w) = some (cs.length + 1) := by
  induction cs with
  | nil => rfl
  | cons c cs ih =>
    obtain ⟨quote, escape, line, -⟩ := h c List.mem_cons_self
    rw [List.cons_append, quoteEnd_cons_of_ne quote escape, if_neg (by simpa using line),
      ih fun d mem => h d (List.mem_cons_of_mem c mem)]
    rfl

theorem IsLiteralText.front? {cs : List Char} (h : IsLiteralText cs) {w : List Char}
    (halts : Halts w) :
    front? (('"' :: cs ++ ['"']) ++ w) = some (.string, ('"' :: cs ++ ['"']).length) := by
  have whole : ('"' :: cs ++ ['"']) ++ w = '"' :: (cs ++ '"' :: w) := by simp
  have triple : tripleQuoted ('"' :: (cs ++ '"' :: w)) = none := by
    obtain ⟨c, ds, rfl⟩ := List.exists_cons_of_ne_nil h.ne_nil
    have first := (h.chars c List.mem_cons_self).1
    unfold tripleQuoted
    split
    next eq =>
      rw [List.cons_append] at eq
      exact absurd (List.cons.inj (List.cons.inj eq).2).1 first
    next => rfl
  have single : quoted ('"' :: (cs ++ '"' :: w)) = some (cs.length + 2) := by
    rw [quoted, quoteEnd_literal h.chars]
    rfl
  have opening : pounds ('"' :: (cs ++ '"' :: w)) = 0 := rfl
  have closing : pounds w = 0 := by
    cases w with
    | nil => rfl
    | cons d ds => simp [pounds, run, (halts.quote d rfl).2]
  have behind : ('"' :: (cs ++ '"' :: w)).drop (cs.length + 2) = w := by
    rw [List.drop_succ_cons, ← List.drop_drop, List.drop_left]
    rfl
  rw [whole, front?_quote, Pattern.string, opening]
  simp [triple, single, behind, closing]

theorem IsLiteralText.piece {cs : List Char} (h : IsLiteralText cs) :
    Piece (String.ofList ('"' :: cs ++ ['"'])) [⟨.string, String.ofList ('"' :: cs ++ ['"'])⟩] := by
  refine ⟨fun w halts => ?_, ?_⟩
  · rw [String.toList_ofList]
    exact .single (.token (h.front? halts) rfl (by simp))
  · rw [String.toList_ofList]
    intro p mem part
    rcases List.mem_cons.mp mem with rfl | mem
    · have star : '*' ∈ '"' :: cs ++ ['"'] := part.subset List.mem_cons_self
      have inner : '*' ∈ cs := by simpa using star
      exact absurd rfl (h.chars _ inner).2.2.2
    · obtain rfl := List.mem_singleton.mp mem
      -- The text has two quotes, one too few.
      have counts := part.sublist.count_le '"'
      have none : cs.count '"' = 0 := List.count_eq_zero.mpr fun mem => (h.chars _ mem).1 rfl
      simp [none] at counts

end Conformance
