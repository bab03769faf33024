import Conformance.Proofs.Token.Ink
import Conformance.Proofs.Token.Moving
import Conformance.Proofs.Token.Tiling
import Mathlib.Data.List.Basic

/-!
# Tokens by themselves

Some neighbours among the tokens of a source are cut out of it.  The text from the first of
them to the last is lexed as these tokens again (`isTextOf_stretch`): each pattern takes as
much as before if nothing follows, and a brace is marked by the token behind it, which is cut
out along with it.

Two things can go wrong at the end of a text, and are ruled out by the last token.  A
directive goes on to the end of its line, and a brace at the end is not marked.
-/

namespace Conformance

/-! ## Kinds and texts -/

/-- The kind and the text of a token. -/
def Token.face (t : Token) : Kind × String := (t.kind, t.text)

/-- Some tokens are all that a text is lexed as, up to places and layout. -/
structure IsTextOf (text : String) (ts : List Token) : Prop where
  /-- No character is stray. -/
  clean : (lex text.toList).stray? = none
  /-- The kinds and texts are those of the tokens. -/
  tokens : (lex text.toList).delivered.map Token.face = ts.map Token.face

instance (text : String) (ts : List Token) : Decidable (IsTextOf text ts) :=
  decidable_of_iff ((lex text.toList).stray? = none ∧
    (lex text.toList).delivered.map Token.face = ts.map Token.face)
    ⟨fun ⟨clean, tokens⟩ => ⟨clean, tokens⟩, fun ⟨clean, tokens⟩ => ⟨clean, tokens⟩⟩

/-- Whether a lexeme is the word of an observer. -/
def Lexeme.opensObserver (l : Lexeme) : Bool :=
  l.kind == .name && (l.text == "willSet" || l.text == "didSet")

/-- The kinds and texts of lexemes, with the braces marked that open observers. -/
def faces : List Lexeme → List (Kind × String)
  | [] => []
  | l :: ls =>
    (if l.kind == .leftBrace && ls.head?.any Lexeme.opensObserver then .observerBrace else l.kind,
      l.text) :: faces ls

@[simp] theorem length_faces (ls : List Lexeme) : (faces ls).length = ls.length := by
  induction ls with
  | nil => rfl
  | cons l ls ih => simp [faces, ih]

theorem drop_faces (n : Nat) (ls : List Lexeme) : (faces ls).drop n = faces (ls.drop n) := by
  induction ls generalizing n with
  | nil => simp [faces]
  | cons l ls ih =>
    cases n with
    | zero => rfl
    | succ n => exact ih n

/-- What follows can mark only a brace at the end. -/
theorem faces_append {ls : List Lexeme} (ms : List Lexeme)
    (last : ∀ l, ls.getLast? = some l → l.kind ≠ .leftBrace) :
    faces (ls ++ ms) = faces ls ++ faces ms := by
  induction ls with
  | nil => rfl
  | cons l ls ih =>
    have others := ih fun r is => last r (by rw [List.getLast?_cons, is]; rfl)
    cases ls with
    | nil => simp [faces, last l rfl]
    | cons r rs => exact congrArg (_ :: ·) others

theorem Token.opensObserver_lexeme (t : Token) : t.lexeme.opensObserver = t.opensObserver := by
  have kinds : ∀ k : Kind, (k.unmarked == .name) = (k == .name) := by
    intro k
    cases k <;> rfl
  simp only [Lexeme.opensObserver, opensObserver, lexeme, kinds]

/-- Marking braces gives tokens the kinds that their lexemes have. -/
theorem face_markObservers {ts : List Token} (none : ∀ t ∈ ts, t.kind ≠ .observerBrace) :
    (Token.markObservers ts).map Token.face = faces (ts.map Token.lexeme) := by
  induction ts with
  | nil => rfl
  | cons t ts ih =>
    have others := ih fun u mem => none u (List.mem_cons_of_mem t mem)
    have kind : t.lexeme.kind = t.kind := by
      have here := none t List.mem_cons_self
      unfold Token.lexeme Kind.unmarked
      cases eq : t.kind <;> first | rfl | exact absurd eq here
    have next : (ts.map Token.lexeme).head?.any Lexeme.opensObserver =
        ts.head?.any Token.opensObserver := by
      cases ts with
      | nil => rfl
      | cons u us => exact u.opensObserver_lexeme
    rw [Token.markObservers, List.map_cons, others, List.map_cons, faces, kind, next]
    unfold Token.marked
    split <;> rfl

/-- Splitting makes no observer braces. -/
theorem kind_split_ne_observer {t : Token} (ne : t.kind ≠ .observerBrace) :
    ∀ u ∈ t.split, u.kind ≠ .observerBrace := by
  have angle : ∀ c, (Kind.ofAngle? c).getD .operator ≠ .observerBrace := by
    intro c
    unfold Kind.ofAngle?
    split <;> decide
  intro u mem
  rcases Token.split_cases mem with rfl | ⟨c, kind⟩
  · exact ne
  · exact kind ▸ angle c

/-- The tokens of a text without stray characters have the kinds of their lexemes. -/
theorem face_delivered {source : List Char} (clean : (lex source).stray? = none) :
    (lex source).delivered.map Token.face =
      faces ((lex source).delivered.map Token.lexeme) := by
  rw [delivered_of_clean clean, Token.stream, lexemes_markObservers]
  refine face_markObservers fun u mem => ?_
  obtain ⟨t, from', piece⟩ := List.mem_flatMap.mp mem
  refine kind_split_ne_observer ?_ u piece
  obtain ⟨l, kind⟩ := exists_kind? _ _ _ _ t from'
  rintro brace
  exact l.kind?_ne_observer _ (brace ▸ kind)

/-! ## Ends -/

/-- Whether a kind may stand at the end of a text that is cut out of a source. -/
def Kind.endsText : Kind → Bool
  | directive | leftBrace | observerBrace => false
  | _ => true

/-- The last of some tokens is neither a directive nor an opening brace. -/
def EndsText (ts : List Token) : Prop := ∀ t, ts.getLast? = some t → t.kind.endsText = true

namespace EndsText

variable {ts : List Token}

theorem not_directive (ends : EndsText ts) : ∀ t, ts.getLast? = some t → t.kind ≠ .directive := by
  rintro t last is
  exact absurd (ends t last) (by simp [is, Kind.endsText])

theorem not_brace (ends : EndsText ts) :
    ∀ l, (ts.map Token.lexeme).getLast? = some l → l.kind ≠ .leftBrace := by
  rintro l last is
  rw [List.getLast?_map, Option.map_eq_some_iff] at last
  obtain ⟨t, last, rfl⟩ := last
  have none : ∀ k : Kind, k.unmarked = .leftBrace → k.endsText = false := by
    intro k
    cases k <;> simp [Kind.unmarked, Kind.endsText]
  exact absurd (ends t last) (by simp [none t.kind is])

theorem of_all (all : ∀ t ∈ ts, t.kind.endsText = true) : EndsText ts :=
  fun t last => all t (List.mem_of_getLast? last)

theorem concat {t : Token} (last : t.kind.endsText = true) : EndsText (ts ++ [t]) := by
  intro u is
  rw [List.getLast?_concat] at is
  cases is
  exact last

theorem append {us : List Token} (first : EndsText ts) (second : EndsText us) :
    EndsText (ts ++ us) := by
  intro t last
  rw [List.getLast?_append] at last
  rcases Option.or_eq_some_iff.mp last with last | ⟨-, last⟩
  · exact second t last
  · exact first t last

theorem flatMap {α : Type} {yield : α → List Token} {as : List α}
    (each : ∀ a ∈ as, EndsText (yield a)) : EndsText (as.flatMap yield) := by
  induction as with
  | nil => simp [EndsText]
  | cons a as ih =>
    rw [List.flatMap_cons]
    exact (each a List.mem_cons_self).append (ih fun b mem => each b (List.mem_cons_of_mem a mem))

theorem behind {t u : Token} (ends : EndsText (t :: u :: ts)) : EndsText (u :: ts) :=
  fun v last => ends v (by rw [List.getLast?_cons, last]; rfl)

end EndsText

theorem Token.lexeme_ne_directive {t : Token} (no : t.kind ≠ .directive) :
    t.lexeme.kind ≠ .directive := by
  have kinds : ∀ k : Kind, k.unmarked = .directive → k = .directive := by
    intro k
    cases k <;> simp [Kind.unmarked]
  exact fun is => no (kinds t.kind is)

theorem Turn.ink_head {text rest : List Char} {l : Lexeme} (h : Turn text (some l) rest) :
    ∀ c ∈ text.head?, Text.isBlank c = false := by
  intro c mem
  cases text with
  | nil => cases mem
  | cons d ds =>
    cases mem
    cases h with
    | angle first => exact Pattern.ink_of_operator (isAngle_operator first).1
    | token found kind =>
      cases blank : Text.isBlank c with
      | false => rfl
      | true =>
        rw [eq_space_of_blank found blank] at kind
        cases kind

theorem Turn.ink_last {text rest : List Char} {l : Lexeme} (h : Turn text (some l) rest)
    (no : l.kind ≠ .directive) : ∀ c ∈ text.getLast?, Text.isBlank c = false := by
  intro c mem
  have ne := h.ne_nil
  cases h with
  | angle first =>
    cases mem
    exact Pattern.ink_of_operator (isAngle_operator first).1
  | @token _ _ l k found kind =>
    have ink : Pattern.InkAt (text ++ rest) text.length := by
      refine inkAt_front? found ?_ ?_ ?_
      · rintro rfl
        exact no (Option.some.inj kind).symm
      · rintro rfl
        cases kind
      · rintro rfl
        cases kind
    refine ink c ?_
    have within : text.length - 1 < text.length :=
      Nat.sub_lt (List.length_pos_iff.mpr ne) Nat.one_pos
    rwa [Option.mem_def, List.getElem?_append_left within, ← List.getLast?_eq_getElem?]

/-- What tokens stand in ends in ink. -/
theorem Stand.ink_last {ts : List Token} {a u : List Char} (h : Stand ts a u)
    (ends : EndsText ts) : ∀ c ∈ a.getLast?, Text.isBlank c = false := by
  induction h with
  | nil => simp
  | @cons t ts a u layout text others ih =>
    cases ts with
    | nil =>
      cases others
      intro c mem
      refine text.ink_last (Token.lexeme_ne_directive (ends.not_directive t rfl)) c ?_
      rw [List.append_nil, List.getLast?_append_of_ne_nil _ text.ne_nil] at mem
      exact mem
    | cons v vs =>
      intro c mem
      refine ih ends.behind c ?_
      rwa [List.getLast?_append_of_ne_nil _ (by simp [text.ne_nil]),
        List.getLast?_append_of_ne_nil _ others.text_ne_nil] at mem

/-- A stretch of tokens has no blanks at its ends. -/
theorem Stand.trimmed_stretch {ts : List Token} {a u : List Char} (h : Stand ts a u)
    (ends : EndsText ts) : Trimmed (Token.stretch ts).toList := by
  cases h with
  | nil => exact ⟨by simp, by simp⟩
  | @cons t ts a u layout text others =>
    have last := (Stand.cons layout text others).ink_last ends
    rw [Token.stretch, String.toList_append, ← others.eq_join]
    refine ⟨fun c mem => ?_, fun c mem => last c ?_⟩
    · rw [Option.mem_def, List.head?_append_of_ne_nil _ text.ne_nil] at mem
      exact text.ink_head c mem
    · rwa [List.getLast?_append_of_ne_nil _ (by simp [text.ne_nil])]

/-! ## Neighbours -/

/-- Tokens in front of others stand in front of the text of these. -/
theorem Stand.exists_append {ts us : List Token} {a rest : List Char}
    (h : Stand (ts ++ us) a rest) :
    ∃ front back, a = front ++ back ∧ Stand ts front (back ++ rest) ∧ Stand us back rest := by
  induction ts generalizing a with
  | nil => exact ⟨[], a, rfl, .nil, h⟩
  | cons t ts ih =>
    cases h with
    | cons layout text others =>
      obtain ⟨front, back, rfl, stand, behind⟩ := ih others
      refine ⟨t.layout.toList ++ (t.text.toList ++ front), back, by simp, .cons ?_ ?_ stand, behind⟩
      · rwa [List.append_assoc] at layout
      · rwa [List.append_assoc] at text

/-- A text in which nothing is stray is lexed as the lexemes of its tokens. -/
theorem lexes_delivered {source : List Char} (clean : (lex source).stray? = none) :
    Lexes source ((lex source).delivered.map Token.lexeme) [] := by
  obtain ⟨a, rest, whole, stand, trailing⟩ := stand_delivered clean
  have front := stand.lexes
  rw [← List.append_nil rest] at front
  have both := front.append trailing
  rwa [List.append_nil, ← whole] at both

section
variable {source : List Char} {ts : List Token}

/-- Neighbours stand somewhere in their source. -/
theorem exists_stand (clean : (lex source).stray? = none) (part : ts <:+: (lex source).delivered) :
    ∃ a u, Stand ts a u ∧ StartsPlain u := by
  obtain ⟨front, back, whole⟩ := part
  obtain ⟨a, rest, -, stand, trailing⟩ := stand_delivered clean
  rw [← whole, List.append_assoc] at stand
  obtain ⟨_, middle, -, -, further⟩ := stand.exists_append
  obtain ⟨here, behind, -, stand, others⟩ := further.exists_append
  have plain : StartsPlain (rest ++ []) := trailing.startsPlain (by simp [StartsPlain])
  rw [List.append_nil] at plain
  exact ⟨here, behind ++ rest, stand, others.lexes.startsPlain plain⟩

/-- Neighbours have the kinds of their lexemes, whatever else is in the source. -/
theorem face_infix (clean : (lex source).stray? = none) (part : ts <:+: (lex source).delivered)
    (ends : EndsText ts) : ts.map Token.face = faces (ts.map Token.lexeme) := by
  obtain ⟨front, back, whole⟩ := part
  have all := face_delivered clean
  rw [← whole] at all
  have behind := congrArg (List.drop front.length) all
  rw [drop_faces] at behind
  simp only [List.append_assoc, List.map_append, List.drop_left' (List.length_map ..),
    faces_append _ ends.not_brace] at behind
  exact (List.append_inj behind (by simp)).1

/-- What has the lexemes of neighbours has their kinds. -/
theorem IsTextOf.of_lexes (clean : (lex source).stray? = none)
    (part : ts <:+: (lex source).delivered) (ends : EndsText ts) {text : String}
    (h : Lexes text.toList (ts.map Token.lexeme) []) : IsTextOf text ts := by
  obtain ⟨alone, lexemes⟩ := lex_of_lexes h
  refine ⟨alone, ?_⟩
  rw [face_delivered alone, lexemes, face_infix clean part ends]

/-- Neighbours stand by themselves, too. -/
theorem exists_alone (clean : (lex source).stray? = none) (part : ts <:+: (lex source).delivered)
    (ends : EndsText ts) : ∃ a, Stand ts a [] := by
  obtain ⟨a, u, stand, plain⟩ := exists_stand clean part
  have tame : Tame a u [] := ⟨by simp, by simp⟩
  exact ⟨a, stand.relocate (by simp [Halts]) tame (by simp) ends.not_directive plain⟩

/-- The text from the first to the last of some neighbours is lexed as these. -/
theorem isTextOf_stretch (clean : (lex source).stray? = none)
    (part : ts <:+: (lex source).delivered) (ends : EndsText ts) :
    IsTextOf (Token.stretch ts) ts := by
  obtain ⟨a, stand⟩ := exists_alone clean part ends
  exact .of_lexes clean part ends stand.lexes_stretch

/-- There are no blanks to trim around some neighbours. -/
theorem trim_stretch (clean : (lex source).stray? = none) (part : ts <:+: (lex source).delivered)
    (ends : EndsText ts) : Text.trim (Token.stretch ts) = Token.stretch ts := by
  obtain ⟨a, u, stand, -⟩ := exists_stand clean part
  exact (stand.trimmed_stretch ends).trim_eq

end

end Conformance
