import Conformance.Proofs.Token.Piece

/-!
# Squashed types

A recorded type is the text of closed tokens with each run of blanks made one space.  Where the
layout between the tokens is blank, the text is a piece again: the tokens are those of the type,
and only the blanks in back-quoted names are changed (`piece_squash`).

Such a name is the one token of a type that may look as if it ended a comment or a literal
with three quotes, so the text is quiet if the names are.
-/

namespace Conformance

open Pattern Lexical Text

/-- The inside of a back-quoted name. -/
structure IsQuotedText (cs : List Char) : Prop where
  /-- There is some text. -/
  ne_nil : cs ≠ []
  /-- The name goes on to its end. -/
  chars : ∀ c ∈ cs, c ≠ '\x60' ∧ c ≠ '\n'

/-- What may stand in any closed token but a back-quoted name. -/
def isCommon (c : Char) : Bool := !isBlank c && c != '*' && c != '/' && c != '"'

/-! ## Back-quoted names -/

theorem ofWord_quoted (cs : List Char) :
    Kind.ofWord (String.ofList ('\x60' :: cs ++ ['\x60'])) = .name := by
  have starts : ∀ p ∈ Kind.reserved, p.1.toList.head? ≠ some '\x60' := by decide
  rcases Kind.ofWord_cases (String.ofList ('\x60' :: cs ++ ['\x60'])) with is | mem
  · exact is
  · exact absurd (by simp) (starts _ mem)

theorem IsQuotedText.turn {cs : List Char} (h : IsQuotedText cs) (w : List Char) :
    Turn ('\x60' :: cs ++ ['\x60']) (some ⟨.name, String.ofList ('\x60' :: cs ++ ['\x60'])⟩) w := by
  have inner : (cs ++ '\x60' :: w).takeWhile (fun c => c != '\x60' && c != '\n') = cs := by
    rw [List.takeWhile_append_of_pos (by simpa using h.chars)]
    simp
  have length := List.length_pos_iff.mpr h.ne_nil
  have name : Pattern.name ('\x60' :: (cs ++ '\x60' :: w)) = some (cs.length + 2) := by
    simp [Pattern.name, run, inner, length]
  have found : front? (('\x60' :: cs ++ ['\x60']) ++ w) =
      some (.word, ('\x60' :: cs ++ ['\x60']).length) := by
    have whole : ('\x60' :: cs ++ ['\x60']) ++ w = '\x60' :: (cs ++ '\x60' :: w) := by simp
    rw [whole, front?_word rfl, name]
    simp
  exact .token found (congrArg some (ofWord_quoted cs)) (by simp)

theorem collapse_ne_nil {cs : List Char} (some : cs ≠ []) : Text.collapse cs ≠ [] := by
  obtain ⟨c, cs, rfl⟩ := List.exists_cons_of_ne_nil some
  intro none
  cases blank : isBlank c with
  | true =>
    have space := head?_collapse_blank cs blank
    rw [none] at space
    cases space
  | false =>
    rw [collapse_ink blank] at none
    cases none

theorem IsQuotedText.collapse {cs : List Char} (h : IsQuotedText cs) :
    IsQuotedText (Text.collapse cs) := by
  refine ⟨collapse_ne_nil h.ne_nil, fun c mem => ⟨?_, ?_⟩⟩
  · rintro rfl
    have part := (List.singleton_infix_iff _ _).mpr mem
    have inside : ['\x60'] <:+: cs := infix_of_collapse (List.all_iff_forall_prop.mp (by decide)) part
    exact (h.chars _ (inside.subset List.mem_cons_self)).1 rfl
  · rintro rfl
    exact (tidy_collapse cs).newline_not_mem mem

theorem collapse_quoted (cs : List Char) :
    Text.collapse ('\x60' :: cs ++ ['\x60']) = '\x60' :: Text.collapse cs ++ ['\x60'] := by
  rw [List.cons_append, collapse_ink (by decide), collapse_append_cons (by decide)]
  rfl

theorem collapse_of_ink {cs : List Char} (ink : ∀ c ∈ cs, isBlank c = false) :
    Text.collapse cs = cs := by
  induction cs with
  | nil => rfl
  | cons c cs ih =>
    rw [collapse_ink (ink c List.mem_cons_self), ih fun d mem => ink d (List.mem_cons_of_mem c mem)]

/-! ## Closed tokens -/

theorem isCommon_of_isNamePart {c : Char} (part : isNamePart c = true) : isCommon c = true := by
  have others : ∀ d ∈ ['*', '/', '"'], isNamePart d = false :=
    List.all_iff_forall_prop.mp (by decide)
  have ne : c ∉ ['*', '/', '"'] := fun mem => by simp [others c mem] at part
  simp only [List.mem_cons, not_or, List.not_mem_nil, not_false_eq_true, and_true] at ne
  simp [isCommon, ink_of_isNamePart part, ne]

theorem isCommon_of_plainName {text rest : List Char}
    (h : plainName (text ++ rest) = some text.length) : ∀ c ∈ text, isCommon c = true := by
  have all := takeWhile_of_run (run_of_plainName h)
  intro c mem
  rw [← all] at mem
  exact isCommon_of_isNamePart (List.mem_takeWhile_imp mem)

theorem exists_quoted {cs rest : List Char}
    (h : Pattern.name ('\x60' :: cs ++ rest) = some (cs.length + 1)) :
    ∃ inner, IsQuotedText inner ∧ cs = inner ++ ['\x60'] := by
  let p : Char → Bool := fun c => c != '\x60' && c != '\n'
  have name : (if 0 < run p (cs ++ rest) && ((cs ++ rest).drop (run p (cs ++ rest))).head? ==
      some '\x60' then some (run p (cs ++ rest) + 2) else none) = some (cs.length + 1) := h
  split at name
  next both =>
    obtain ⟨positive, last⟩ := Bool.and_eq_true_iff.mp both
    have length : run p (cs ++ rest) + 1 = cs.length := by
      have eq := Option.some.inj name
      omega
    have short : run p (cs ++ rest) ≤ cs.length := by omega
    have inner : (cs ++ rest).takeWhile p = cs.take (run p (cs ++ rest)) := by
      rw [← List.take_append_of_le_length short]
      exact List.prefix_iff_eq_take.mp (List.takeWhile_prefix p)
    have final : cs.drop (run p (cs ++ rest)) = ['\x60'] := by
      rw [List.drop_append_of_le_length short, beq_iff_eq] at last
      have one : (cs.drop (run p (cs ++ rest))).length = 1 := by
        rw [List.length_drop]
        omega
      obtain ⟨c, eq⟩ := List.length_eq_one_iff.mp one
      rw [eq] at last ⊢
      exact congrArg (fun d => [d]) (Option.some.inj last)
    refine ⟨cs.take (run p (cs ++ rest)), ⟨?_, fun c mem => ?_⟩, ?_⟩
    · refine List.ne_nil_of_length_pos ?_
      rw [List.length_take]
      have some := of_decide_eq_true positive
      omega
    · rw [← inner] at mem
      have is : p c = true := List.mem_takeWhile_imp mem
      simpa [p] using is
    · rw [← final, List.take_append_drop]
  next => cases name

theorem quoted_or_common {text rest : List Char}
    (h : Pattern.name (text ++ rest) = some text.length) :
    (∃ cs, IsQuotedText cs ∧ text = '\x60' :: cs ++ ['\x60']) ∨ ∀ c ∈ text, isCommon c = true := by
  cases text with
  | nil => exact absurd (name_bounds h).1 (by simp)
  | cons c cs =>
    by_cases quote : c = '\x60'
    · subst quote
      obtain ⟨inner, is, rfl⟩ := exists_quoted h
      exact .inl ⟨inner, is, rfl⟩
    refine .inr ?_
    by_cases dollar : c = '$'
    · subst dollar
      have behind : ∀ d ∈ cs, isCommon d = true := by
        have name : (if 0 < run Char.isDigit (cs ++ rest) then some (1 + run Char.isDigit (cs ++ rest))
            else (plainName (cs ++ rest)).map (· + 1)) = some (cs.length + 1) := h
        split at name
        next =>
          have length : run Char.isDigit (cs ++ rest) = cs.length := by
            have eq := Option.some.inj name
            omega
          intro d mem
          rw [← takeWhile_of_run length] at mem
          exact isCommon_of_isNamePart (isNamePart_of_isDigit (List.mem_takeWhile_imp mem))
        next =>
          obtain ⟨n, plain, eq⟩ := Option.map_eq_some_iff.mp name
          obtain rfl : n = cs.length := Nat.succ.inj eq
          exact isCommon_of_plainName plain
      exact List.forall_mem_cons.mpr ⟨by decide, behind⟩
    · have name : Pattern.name (c :: (cs ++ rest)) = plainName (c :: (cs ++ rest)) := by
        unfold Pattern.name
        split
        next eq => exact absurd (List.cons.inj eq).1 quote
        next eq => exact absurd (List.cons.inj eq).1 dollar
        next => rfl
      rw [List.cons_append, name, ← List.cons_append] at h
      exact isCommon_of_plainName h

/-- A closed token is a back-quoted name or has only common characters. -/
theorem Turn.quoted_or_common {text rest : List Char} {l : Lexeme}
    (h : Turn text (some l) rest) (closed : l.kind.isClosed = true) :
    (∃ cs, IsQuotedText cs ∧ text = '\x60' :: cs ++ ['\x60'] ∧ l.kind = .name) ∨
      ∀ c ∈ text, isCommon c = true := by
  cases h with
  | @angle c _ first =>
    refine .inr ?_
    have all : ∀ d ∈ signs, isAngle d = true → isCommon d = true :=
      List.all_iff_forall_prop.mp (by decide)
    have sign := mem_signs_of_operator (isAngle_operator first).1
    simpa using all c sign first
  | @token _ _ l k found kind whole =>
    obtain ⟨p, mem, matches'⟩ := exists_pattern found
    cases l with
    | directive | number | string | poundName =>
      cases kind
      cases closed
    | comment | space => cases kind
    | word =>
      obtain rfl : p = Pattern.name := by simpa [patterns] using mem
      rcases Conformance.quoted_or_common matches' with ⟨cs, is, rfl⟩ | common
      · exact .inl ⟨cs, is, rfl, (Option.some.inj kind).symm.trans (ofWord_quoted cs)⟩
      · exact .inr common
    | operator =>
      have all : Kind.operators.all (·.1.toList.all isCommon) = true := by decide
      obtain rfl := Option.some.inj kind
      rcases Kind.ofOperator_cases (String.ofList text) with is | named
      · have closed : (Kind.ofOperator (String.ofList text)).isClosed = true := closed
        rw [is] at closed
        cases closed
      · have common := List.all_eq_true.mp (List.all_eq_true.mp all _ named)
        exact .inr fun c mem => common c (by simpa using mem)
    | mark =>
      obtain rfl : p = Pattern.mark := by simpa [patterns] using mem
      have all : ∀ d ∈ signs, isMark d = true → isCommon d = true :=
        List.all_iff_forall_prop.mp (by decide)
      cases text with
      | nil => exact absurd (mark_bounds matches').1 (by simp)
      | cons c cs =>
        rw [List.cons_append, Pattern.mark] at matches'
        split at matches'
        next is =>
          obtain rfl : cs = [] := by simpa [eq_comm] using matches'
          exact .inr (by simpa using all c (mem_signs_of_mark is) is)
        next => cases matches'

theorem Turn.text_eq {text rest : List Char} {l : Lexeme} (h : Turn text (some l) rest) :
    l.text = String.ofList text := by
  cases h with
  | angle => exact String.singleton_eq_ofList
  | token => rfl

/-- A closed token is kept when it is collapsed along with the text behind it, up to the blanks in
a back-quoted name. -/
theorem Turn.collapse_closed {text b u w : List Char} {l : Lexeme}
    (h : Turn text (some l) (b ++ u)) (closed : l.kind.isClosed = true) (halts : Halts w)
    (plain : StartsPlain (b ++ u)) :
    Turn (Text.collapse text) (some ⟨l.kind, String.ofList (Text.collapse text)⟩)
      (Text.collapse b ++ w) := by
  rcases h.quoted_or_common closed with ⟨cs, is, rfl, kind⟩ | common
  · rw [collapse_quoted, kind]
    exact is.collapse.turn _
  · have ink : ∀ c ∈ text, isBlank c = false := by
      intro c mem
      have is := common c mem
      simp only [isCommon, Bool.and_eq_true, Bool.not_eq_true'] at is
      exact is.1.1.1
    rw [collapse_of_ink ink, ← h.text_eq]
    refine h.collapse halts (fun c mem far => ?_) (fun is => ?_) (fun is => ?_) plain
    · rw [h.not_opensFar closed c mem] at far
      cases far
    · rw [is] at closed
      cases closed
    · rw [is] at closed
      cases closed

/-! ## Tokens -/

/-- The lexeme that a token of a type has in the squashed text. -/
def Token.squashed (t : Token) : Lexeme :=
  ⟨t.kind.unmarked, String.ofList (Text.collapse t.text.toList)⟩

section
variable {ts : List Token} {a u w : List Char}

theorem startsPlain_nil : StartsPlain [] := by simp [StartsPlain]

theorem isLayout_of_blanks {cs : List Char} (blank : ∀ c ∈ cs, isSpace c = true) :
    IsLayout false cs [] := by
  induction cs with
  | nil => exact .done
  | cons c cs ih =>
    exact .blank (blank c List.mem_cons_self) (ih fun d mem => blank d (List.mem_cons_of_mem c mem))

/-- Closed tokens with blanks between them are lexed from their collapsed text. -/
theorem Stand.lexes_squashed (h : Stand ts a u) (closed : ∀ t ∈ ts, t.kind.isClosed = true)
    (blank : ∀ t ∈ ts, ∀ c ∈ t.layout.toList, isSpace c = true) (halts : Halts w)
    (plain : StartsPlain u) : Lexes (Text.collapse a) (ts.map Token.squashed) w := by
  induction h with
  | nil => exact .done
  | @cons t ts a u layout text others ih =>
    simp only [List.forall_mem_cons] at closed blank
    have further := ih closed.2 blank.2 plain
    have turn := text.collapse_closed (Token.isClosed_lexeme closed.1) halts
      (others.lexes.startsPlain plain)
    have last : Seam t.text.toList a := by
      refine .inl (text.ink_last fun is => ?_)
      have no := Token.isClosed_lexeme closed.1
      rw [is] at no
      cases no
    refine Stand.collapse_layout (isLayout_of_blanks blank.1) (Stand.ink_head text) ?_
    rw [collapse_append last]
    exact .turn turn further

/-- No closed token ends in a part of what ends a comment or a literal. -/
theorem Turn.last_of_closed {text rest : List Char} {l : Lexeme} (h : Turn text (some l) rest)
    (closed : l.kind.isClosed = true) : ∀ c ∈ text.getLast?, ∀ p ∈ farEnds, c ∉ p := by
  intro c mem
  have common : farEnds.all (·.all fun d => !isCommon d) = true := by decide
  intro p far inside
  have no : isCommon c = false := by
    simpa using List.all_eq_true.mp (List.all_eq_true.mp common p far) c inside
  rcases h.quoted_or_common closed with ⟨cs, -, rfl, -⟩ | all
  · rw [List.getLast?_concat] at mem
    cases mem
    cases no
  · rw [all c (List.mem_of_getLast? mem)] at no
    cases no

/-- Closed tokens with blanks between them are quiet if each of them is. -/
theorem Stand.quiet (h : Stand ts a u) (closed : ∀ t ∈ ts, t.kind.isClosed = true)
    (blank : ∀ t ∈ ts, ∀ c ∈ t.layout.toList, isSpace c = true)
    (quiet : ∀ t ∈ ts, Quiet t.text.toList) : Quiet a := by
  induction h with
  | nil => exact .of_chars (by simp) (by simp)
  | @cons t ts a u layout text others ih =>
    simp only [List.forall_mem_cons] at closed blank quiet
    have behind := ih closed.2 blank.2 quiet.2
    have space : ∀ c, isSpace c = true → halts c = true := fun c is => by simp [halts, is]
    have front : Quiet t.layout.toList := by
      refine .of_chars (fun mem => ?_) fun mem => ?_ <;> exact absurd (blank.1 _ mem) (by decide)
    refine front.append_last ?_ fun c mem => space c (blank.1 c (List.mem_of_getLast? mem))
    intro p mem part
    have edge := text.last_of_closed (Token.isClosed_lexeme closed.1)
    exact (infix_append_of_edge (.inl fun c last => edge c last p mem) part).elim
      (quiet.1 p mem) (behind p mem)

end

/-- The squashed text of closed tokens with blanks between them is a piece. -/
theorem piece_squash {source : List Char} {ts : List Token}
    (clean : (lex source).stray? = none) (part : ts <:+: (lex source).delivered)
    (ends : EndsText ts) (closed : ∀ t ∈ ts, t.kind.isClosed = true)
    (blank : ∀ t ∈ ts.tail, ∀ c ∈ t.layout.toList, isSpace c = true)
    (quiet : ∀ t ∈ ts, Quiet t.text.toList) :
    Piece (squash (Token.stretch ts)) (ts.map Token.squashed) := by
  obtain ⟨a, stand⟩ := exists_alone clean part ends
  have trimmed := stand.trimmed_stretch ends
  have text : (squash (Token.stretch ts)).toList = Text.collapse (Token.stretch ts).toList := by
    rw [squash_eq_collapse trimmed.head trimmed.last, String.toList_ofList]
  cases stand with
  | nil =>
    have none : (squash (Token.stretch [])).toList = [] := text
    refine ⟨fun w _ => ?_, ?_⟩ <;> rw [none]
    · exact .done
    · exact .of_chars (by simp) (by simp)
  | @cons t ts a _ layout turn others =>
    simp only [List.forall_mem_cons] at closed quiet
    have no := Token.isClosed_lexeme closed.1
    have seam : Seam t.text.toList a := by
      refine .inl (turn.ink_last fun is => ?_)
      rw [is] at no
      cases no
    refine ⟨fun w halts => ?_, ?_⟩
    · rw [text, stretch_cons others, collapse_append seam]
      have behind := others.lexes_squashed closed.2 blank halts startsPlain_nil
      exact .turn (turn.collapse_closed no halts (others.lexes.startsPlain startsPlain_nil)) behind
    · rw [text, stretch_cons others]
      intro p mem inside
      have ink : farEnds.all (·.all fun c => !isBlank c) = true := by decide
      have inks : ∀ c ∈ p, isBlank c = false := fun c within => by
        simpa using List.all_eq_true.mp (List.all_eq_true.mp ink p mem) c within
      have whole := infix_of_collapse inks inside
      have edge := turn.last_of_closed no
      exact (infix_append_of_edge (.inl fun c last => edge c last p mem) whole).elim
        (quiet.1 p mem) (others.quiet closed.2 blank quiet.2 p mem)

end Conformance
