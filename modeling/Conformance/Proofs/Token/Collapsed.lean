import Conformance.Proofs.Text.Collapse
import Conformance.Proofs.Token.Alone
import Conformance.Proofs.Token.Layout

/-!
# Tokens of a collapsed text

The text from the first to the last of some neighbours is collapsed: each run of blanks in it
is made one space.

Between tokens this does no harm as long as no line comment stands there.  Its end is a line
feed, which is a space then, so the comment goes on and swallows all tokens behind it
(`Stand.exists_prefix`).  In a token it does harm if it changes the token's text, and a
directive has no end but that of its line.  So a collapsed text is lexed as the tokens of the
text just if these are `Collapsible` (`isTextOf_squash_iff`).

The tokens of proper types cannot join with the text behind them, if this begins with a blank
or a mark (`isTextOf_squash_append`).
-/

namespace Conformance

open Pattern Text

theorem isBlank_of_isSpace {c : Char} (space : isSpace c = true) : isBlank c = true := by
  have all : ∀ c ∈ signs, isSpace c = true → isBlank c = true :=
    List.all_iff_forall_prop.mp (by decide)
  exact all c (mem_signs_of_space space) space

/-! ## Layout -/

namespace IsLayout

section
variable {a body rest text : List Char}

theorem not_closes_collapse (first : ¬['*', '/'] <:+: body ++ ['*']) :
    ¬['*', '/'] <:+: collapse body ++ ['*'] := by
  have same : collapse (body ++ ['*']) = collapse body ++ ['*'] := collapse_append_cons rfl
  rw [← same]
  have ink : ∀ c ∈ ['*', '/'], isBlank c = false := List.all_iff_forall_prop.mp (by decide)
  exact fun closes => first (infix_of_collapse ink closes)

theorem collapse_block (body text : List Char) :
    collapse ('/' :: '*' :: (body ++ '*' :: '/' :: text)) =
      '/' :: '*' :: (collapse body ++ '*' :: '/' :: collapse text) := by
  rw [collapse_ink (by decide), collapse_ink (by decide), collapse_append_cons (by decide),
    collapse_ink (by decide)]

/-- Layout without line comments is such when it is collapsed. -/
theorem collapse (h : IsLayout false a rest) (behind : List Char) :
    IsLayout false (collapse a) behind := by
  induction h with
  | done => exact .done
  | @blank c text rest space more ih =>
    rcases collapse_blank text (isBlank_of_isSpace space) with same | one
    · rwa [same]
    · rw [one]
      exact .blank rfl ih
  | line allowed => cases allowed
  | @block body text rest first more ih =>
    rw [collapse_block]
    exact .block (not_closes_collapse first) ih

/-- A line comment has no end in a collapsed text. -/
theorem collapse_line (h : IsLayout true a rest) (line : ¬IsLayout false a [])
    (behind : List Char) : IsLayout true (Text.collapse (a ++ behind)) [] := by
  induction h with
  | done => exact absurd .done line
  | @blank c text rest space more ih =>
    have further := ih fun layout => line (.blank space layout)
    rcases collapse_blank (text ++ behind) (isBlank_of_isSpace space) with same | one
    · rwa [List.cons_append, same]
    · rw [List.cons_append, one]
      exact .blank rfl further
  | @line body text rest allowed inside ends more ih =>
    have whole := (tidy_collapse (body ++ text ++ behind)).newline_not_mem
    have comment : IsLayout true ('/' :: '/' :: (Text.collapse (body ++ text ++ behind) ++ [])) [] :=
      .line rfl whole (by simp) .done
    rw [List.append_nil] at comment
    rwa [List.cons_append, List.cons_append, collapse_ink (by decide), collapse_ink (by decide)]
  | @block body text rest first more ih =>
    have further := ih fun layout => line (.block first layout)
    have whole : '/' :: '*' :: (body ++ '*' :: '/' :: text) ++ behind =
        '/' :: '*' :: (body ++ '*' :: '/' :: (text ++ behind)) := by simp
    rw [whole, collapse_block]
    exact .block (not_closes_collapse first) further

end

end IsLayout

/-! ## Turns -/

section
variable {b u w z text : List Char}

/-- A mark in a collapsed text is a mark in the text. -/
theorem infix_of_collapse_append {p : List Char} (ink : ∀ c ∈ p, isBlank c = false)
    (out : ∀ c ∈ w.head?, c ∉ p) (closes : p <:+: w → p <:+: u)
    (h : p <:+: collapse z ++ w) : p <:+: z ++ u := by
  by_cases behind : p <:+: w
  · exact (closes behind).trans (List.suffix_append z u).isInfix
  · have inside : p <:+: collapse z ++ [] := infix_relocate out (fun is => absurd is behind) h
    rw [List.append_nil] at inside
    exact (infix_of_collapse ink inside).trans (List.prefix_append z u).isInfix

theorem Tame.collapse {a : List Char} (tame : Tame a u w) (halts : Halts w) :
    Tame a (z ++ u) (collapse z ++ w) := by
  have out : ∀ c ∈ w.head?, c ∉ ['*', '/'] ∧ c ∉ ['"', '"', '"'] := by
    intro c mem
    have others := (not_of_halts (halts c mem)).2.2.2.1
    simp_all
  have mark : ∀ c ∈ ['*', '/'], isBlank c = false := List.all_iff_forall_prop.mp (by decide)
  have quote : ∀ c ∈ ['"', '"', '"'], isBlank c = false := List.all_iff_forall_prop.mp (by decide)
  constructor
  · intro slash
    exact infix_of_collapse_append mark (fun c mem => (out c mem).1) (tame.comment slash)
  · intro quotes
    exact infix_of_collapse_append quote (fun c mem => (out c mem).2) (tame.triple quotes)

/-- A token is taken in front of a text as it is in front of the collapsed text. -/
theorem Turn.collapse {l : Lexeme} (h : Turn text (some l) (b ++ u)) (halts : Halts w)
    (tame : ∀ c ∈ text.head?, opensFar c = true → Tame (text ++ b) u w)
    (dot : l.kind = .number → w.head? ≠ some '.') (no : l.kind ≠ .directive)
    (plain : StartsPlain (b ++ u)) : Turn text (some l) (collapse b ++ w) := by
  obtain ⟨front, back, rfl, eq, blank⟩ := exists_blank_behind b
  rw [List.append_assoc] at h plain
  rw [eq, List.append_assoc]
  have first : back ≠ [] → (Text.collapse back ++ w).head? = some ' ' := by
    intro ne
    cases back with
    | nil => exact absurd rfl ne
    | cons c cs => rw [List.head?_append, head?_collapse_blank cs (blank c rfl)]; rfl
  refine h.relocate ?_ ?_ ?_ (.inr ⟨l, rfl, no⟩) plain
  · intro c mem
    by_cases none : back = []
    · subst none
      exact halts c mem
    · rw [first none] at mem
      cases mem
      rfl
  · intro c mem far
    refine ((tame c mem far).mono fun d inside => ?_).collapse halts
    rw [← List.append_assoc]
    exact List.mem_append_left back inside
  · rintro l' ⟨⟩ number
    by_cases none : back = []
    · subst none
      exact dot number
    · rw [first none]
      decide

end

/-! ## Directives -/

/-- Only the directive pattern makes directives. -/
theorem Lexical.eq_directive {l : Lexical} {text : List Char}
    (kind : l.kind? text = some .directive) : l = .directive := by
  have only : ∀ l : Lexical, Kind.directive ∈ l.kinds → l = .directive := by
    intro l
    cases l <;> decide
  exact only l (mem_kinds kind)

/-- In a single line a directive goes on to the end. -/
theorem directive_eq_length {cs : List Char} {n : Nat} (h : directive cs = some n)
    (line : '\n' ∉ cs) : n = cs.length := by
  unfold directive at h
  split at h
  next cs =>
    split at h
    next =>
      have all : ∀ c ∈ cs, inLine c = true := by
        intro c mem
        refine bne_iff_ne.mpr ?_
        rintro rfl
        exact line (List.mem_cons_of_mem _ mem)
      cases h
      rw [run, List.takeWhile_eq_self_iff.mpr all, List.length_cons, Nat.add_comm]
    next => cases h
  next => cases h

theorem Turn.eq_nil_of_directive {text rest : List Char} {l : Lexeme}
    (h : Turn text (some l) rest) (is : l.kind = .directive) (line : '\n' ∉ text ++ rest) :
    rest = [] := by
  cases h with
  | @angle c _ first =>
    have other : Kind.ofAngle? c ≠ some .directive := by
      unfold Kind.ofAngle?
      split <;> decide
    obtain ⟨k, some⟩ := Option.isSome_iff_exists.mp first
    have kind : (Kind.ofAngle? c).getD .operator = .directive := is
    rw [some] at kind
    exact absurd (some.trans (congrArg _ kind)) other
  | @token _ _ l k found kind =>
    obtain rfl : k = .directive := is
    obtain rfl := Lexical.eq_directive kind
    obtain ⟨p, mem, matches'⟩ := Lexical.exists_pattern found
    obtain rfl : p = directive := by simpa [Lexical.patterns] using mem
    have whole := directive_eq_length matches' line
    rw [List.length_append] at whole
    exact List.length_eq_zero_iff.mp (by omega)

/-! ## Tokens -/

/-- Tokens that are kept when their text is collapsed. -/
structure Collapsible (ts : List Token) : Prop where
  /-- No token's text is changed. -/
  texts : ∀ t ∈ ts, squash t.text = t.text
  /-- No line comment stands between two tokens. -/
  layouts : ∀ t ∈ ts.tail, IsLayout false t.layout.toList []
  /-- None is a directive. -/
  directives : ∀ t ∈ ts, t.kind ≠ .directive

namespace Stand

variable {ts : List Token} {a u w : List Char}

/-- A token is kept when it is collapsed along with the text behind it. -/
theorem collapse_text {t : Token} {ls : List Lexeme}
    (text : Turn t.text.toList (some t.lexeme) (a ++ u))
    (halts : Halts w)
    (tame : ∀ c ∈ t.text.toList.head?, opensFar c = true → Tame (t.text.toList ++ a) u w)
    (dot : t.kind = .number → w.head? ≠ some '.') (no : t.kind ≠ .directive)
    (plain : StartsPlain (a ++ u)) (tidy : Tidy t.text.toList)
    (others : Lexes (collapse a) ls w) :
    Lexes (collapse (t.text.toList ++ a)) (t.lexeme :: ls) w := by
  have no' := Token.lexeme_ne_directive no
  have number : t.lexeme.kind = .number → t.kind = .number := by
    unfold Token.lexeme Kind.unmarked
    cases t.kind <;> simp
  have last : Seam t.text.toList a := .inl (text.ink_last no')
  rw [collapse_append last, tidy.collapse_eq]
  exact .turn (text.collapse halts tame (fun is => dot (number is)) no' plain) others

/-- So it is behind layout without line comments. -/
theorem collapse_layout {ls : List Lexeme} {layout text : List Char}
    (before : IsLayout false layout []) (ink : ∀ c ∈ text.head?, isBlank c = false)
    (others : Lexes (collapse text) ls w) : Lexes (collapse (layout ++ text)) ls w := by
  rw [collapse_append (.inr ink)]
  exact (isLayout_iff_lexes.mp ((before.collapse []).closed _)).append others

theorem ink_head {t : Token} (text : Turn t.text.toList (some t.lexeme) (a ++ u)) :
    ∀ c ∈ (t.text.toList ++ a).head?, isBlank c = false := by
  rw [List.head?_append_of_ne_nil _ text.ne_nil]
  exact text.ink_head

/-- Tokens without line comments between them are lexed from their collapsed text. -/
theorem lexes_collapse (h : Stand ts a u) (halts : Halts w)
    (tame : ∀ t ∈ ts, ∀ c ∈ t.text.toList.head?, opensFar c = true → Tame a u w)
    (dot : ∀ t ∈ ts, t.kind = .number → w.head? ≠ some '.') (no : ∀ t ∈ ts, t.kind ≠ .directive)
    (plain : StartsPlain u) (tidy : ∀ t ∈ ts, Tidy t.text.toList)
    (layouts : ∀ t ∈ ts, IsLayout false t.layout.toList []) :
    Lexes (collapse a) (ts.map Token.lexeme) w := by
  induction h with
  | nil => exact .done
  | @cons t ts a u layout text others ih =>
    simp only [List.forall_mem_cons] at tame dot no tidy layouts
    have further := ih
      (fun v mem c head far => (tame.2 v mem c head far).mono (by simp +contextual))
      dot.2 no.2 plain tidy.2 layouts.2
    exact collapse_layout layouts.1 (ink_head text) (collapse_text text halts
      (fun c head far => (tame.1 c head far).mono (by simp +contextual)) dot.1 no.1
      (others.lexes.startsPlain plain) tidy.1 further)

/-- Of a collapsed text the first tokens are lexed, and only without line comments all of them. -/
theorem exists_prefix (h : Stand ts a []) (no : ∀ t ∈ ts, t.kind ≠ .directive)
    (tidy : ∀ t ∈ ts, Tidy t.text.toList) :
    ∃ kept, kept <+: ts ∧ Lexes (collapse a) (kept.map Token.lexeme) [] ∧
      (kept = ts → ∀ t ∈ ts, IsLayout false t.layout.toList []) := by
  generalize none : ([] : List Char) = u at h
  induction h with
  | nil => exact ⟨[], List.nil_prefix, .done, by simp⟩
  | @cons t ts a u layout text others ih =>
    subst none
    simp only [List.forall_mem_cons] at no tidy
    by_cases line : IsLayout false t.layout.toList []
    · obtain ⟨kept, front, lexes, all⟩ := ih no.2 tidy.2 rfl
      refine ⟨t :: kept, List.cons_prefix_cons.mpr ⟨rfl, front⟩, ?_, fun same => ?_⟩
      · exact collapse_layout line (ink_head text) (collapse_text text (by simp [Halts])
          (fun _ _ _ => ⟨by simp, by simp⟩) (by simp) no.1
          (others.lexes.startsPlain (by simp [StartsPlain])) tidy.1 lexes)
      · exact List.forall_mem_cons.mpr ⟨line, all (List.cons.inj same).2⟩
    · refine ⟨[], List.nil_prefix, ?_, fun same => absurd same (List.cons_ne_nil t ts).symm⟩
      exact isLayout_iff_lexes.mp ((isLayout_iff_lexes.mpr layout).collapse_line line _)

/-- A token's text is part of the text it stands in. -/
theorem infix_text (h : Stand ts a u) {t : Token} (mem : t ∈ ts) : t.text.toList <:+: a := by
  induction h with
  | nil => cases mem
  | @cons v ts a u layout text others ih =>
    rcases List.mem_cons.mp mem with rfl | later
    · exact ⟨t.layout.toList, a, List.append_assoc ..⟩
    · exact (ih later).trans ⟨v.layout.toList ++ v.text.toList, [], by simp⟩

/-- A token is taken somewhere. -/
theorem exists_turn (h : Stand ts a u) {t : Token} (mem : t ∈ ts) :
    ∃ rest, Turn t.text.toList (some t.lexeme) rest := by
  induction h with
  | nil => cases mem
  | cons layout text others ih =>
    rcases List.mem_cons.mp mem with rfl | later
    · exact ⟨_, text⟩
    · exact ih later

/-- Squashing keeps a token's text if this is tidy. -/
theorem squash_text_iff (h : Stand ts a u) {t : Token} (mem : t ∈ ts) (no : t.kind ≠ .directive) :
    squash t.text = t.text ↔ Tidy t.text.toList := by
  obtain ⟨rest, turn⟩ := h.exists_turn mem
  exact squash_eq_self_iff turn.ink_head (turn.ink_last (Token.lexeme_ne_directive no))

/-- In a single line, only the last token is a directive. -/
theorem getLast?_of_directive (h : Stand ts a u) (line : '\n' ∉ a ++ u) {t : Token} (mem : t ∈ ts)
    (is : t.kind = .directive) : ts.getLast? = some t := by
  induction h with
  | nil => cases mem
  | @cons v ts a u layout text others ih =>
    rcases List.mem_cons.mp mem with rfl | later
    · have kind : t.lexeme.kind = .directive := congrArg Kind.unmarked is
      have behind : a ++ u = [] := text.eq_nil_of_directive kind (by simp_all)
      obtain rfl : a = [] := (List.append_eq_nil_iff.mp behind).1
      cases ts with
      | nil => rfl
      | cons w ws => exact absurd rfl others.text_ne_nil
    · rw [List.getLast?_cons, ih (by simp_all) later]
      rfl

end Stand

/-! ## Neighbours -/

namespace IsTextOf

variable {ts : List Token} {text : String}

theorem exists_token (h : IsTextOf text ts) {t : Token} (mem : t ∈ ts) :
    ∃ v ∈ (lex text.toList).delivered, v.face = t.face := by
  have face : t.face ∈ (lex text.toList).delivered.map Token.face :=
    h.tokens ▸ List.mem_map_of_mem mem
  exact List.mem_map.mp face

/-- The tokens of a tidy text are tidy. -/
theorem tidy (h : IsTextOf text ts) (line : Tidy text.toList) :
    ∀ t ∈ ts, Tidy t.text.toList := by
  intro t mem
  obtain ⟨a, rest, whole, stand, -⟩ := stand_delivered h.clean
  obtain ⟨v, delivered, same⟩ := h.exists_token mem
  have inText : v.text.toList <:+: text.toList :=
    (stand.infix_text delivered).trans ⟨[], rest, whole.symm⟩
  have eq : v.text = t.text := congrArg Prod.snd same
  exact eq ▸ line.of_infix inText

/-- A tidy text is a single line, where a directive could only be the last token. -/
theorem ne_directive (h : IsTextOf text ts) (line : Tidy text.toList) (ends : EndsText ts) :
    ∀ t ∈ ts, t.kind ≠ .directive := by
  intro t mem is
  obtain ⟨a, rest, whole, stand, -⟩ := stand_delivered h.clean
  obtain ⟨v, delivered, same⟩ := h.exists_token mem
  have kind : v.kind = .directive := (congrArg Prod.fst same).trans is
  have last := stand.getLast?_of_directive (whole ▸ line.newline_not_mem) delivered kind
  have faces := congrArg List.getLast? h.tokens
  rw [List.getLast?_map, List.getLast?_map, last] at faces
  obtain ⟨z, final, eq⟩ := Option.map_eq_some_iff.mp faces.symm
  exact ends.not_directive z final ((congrArg Prod.fst eq).trans kind)

end IsTextOf

section
variable {source : List Char} {ts : List Token}

theorem stretch_cons {t : Token} {a u : List Char} (others : Stand ts a u) :
    (Token.stretch (t :: ts)).toList = t.text.toList ++ a := by
  rw [Token.stretch, String.toList_append, ← others.eq_join]

/-- The collapsed text of collapsible tokens is lexed as these in front of any text that they do
not join with. -/
theorem Collapsible.lexes {a w : List Char} (h : Collapsible ts) (stand : Stand ts a [])
    (halts : Halts w)
    (tame : ∀ t ∈ ts, ∀ c ∈ t.text.toList.head?, opensFar c = true → ∀ a, Tame a [] w)
    (dot : ∀ t ∈ ts, t.kind = .number → w.head? ≠ some '.') :
    Lexes (collapse (Token.stretch ts).toList) (ts.map Token.lexeme) w := by
  have tidy : ∀ t ∈ ts, Tidy t.text.toList := fun t mem =>
    (stand.squash_text_iff mem (h.directives t mem)).mp (h.texts t mem)
  have no := h.directives
  cases stand with
  | nil => exact .done
  | @cons t ts a _ layout text others =>
    simp only [List.forall_mem_cons] at tame dot no tidy
    have further := others.lexes_collapse halts (fun v mem c head far => tame.2 v mem c head far _)
      dot.2 no.2 (by simp [StartsPlain]) tidy.2 h.layouts
    rw [stretch_cons others]
    exact Stand.collapse_text text halts (fun c head far => tame.1 c head far _) dot.1 no.1
      (others.lexes.startsPlain (by simp [StartsPlain])) tidy.1 further

/-- Tokens that are lexed from their collapsed text have no line comments between them. -/
theorem layouts_of_length {a : List Char} (stand : Stand ts a [])
    (no : ∀ t ∈ ts, t.kind ≠ .directive) (tidy : ∀ t ∈ ts, Tidy t.text.toList)
    (whole : (lex (collapse (Token.stretch ts).toList)).delivered.length = ts.length) :
    ∀ t ∈ ts.tail, IsLayout false t.layout.toList [] := by
  cases stand with
  | nil => simp
  | @cons t ts a _ layout text others =>
    simp only [List.forall_mem_cons] at no tidy
    obtain ⟨kept, front, lexes, all⟩ := others.exists_prefix no.2 tidy.2
    have read := Stand.collapse_text text (by simp [Halts]) (fun _ _ _ => ⟨by simp, by simp⟩)
      (by simp) no.1 (others.lexes.startsPlain (by simp [StartsPlain])) tidy.1 lexes
    rw [← stretch_cons others] at read
    have lengths := congrArg List.length (lex_of_lexes read).2
    simp only [List.length_map, List.length_cons, whole, Nat.add_right_cancel_iff] at lengths
    exact all (front.eq_of_length lengths.symm)

/-- The text of neighbours is lexed as these once it is collapsed just if they are collapsible. -/
theorem isTextOf_squash_iff (clean : (lex source).stray? = none)
    (part : ts <:+: (lex source).delivered) (ends : EndsText ts) :
    IsTextOf (squash (Token.stretch ts)) ts ↔ Collapsible ts := by
  obtain ⟨a, stand⟩ := exists_alone clean part ends
  have trimmed := stand.trimmed_stretch ends
  have eq : (squash (Token.stretch ts)).toList = collapse (Token.stretch ts).toList := by
    rw [squash_eq_collapse trimmed.head trimmed.last, String.toList_ofList]
  constructor
  · intro alone
    have line : Tidy (squash (Token.stretch ts)).toList := by
      rw [eq]
      exact tidy_collapse _
    have no := alone.ne_directive line ends
    have tidy := alone.tidy line
    have whole := congrArg List.length alone.tokens
    rw [List.length_map, List.length_map, eq] at whole
    exact ⟨fun t mem => (stand.squash_text_iff mem (no t mem)).mpr (tidy t mem),
      layouts_of_length stand no tidy whole, no⟩
  · intro h
    have read : Lexes (squash (Token.stretch ts)).toList (ts.map Token.lexeme) [] := by
      rw [eq]
      exact h.lexes stand (by simp [Halts]) (fun _ _ _ _ _ _ => ⟨by simp, by simp⟩) (by simp)
    exact .of_lexes clean part ends read

end

/-! ## Text behind -/

/-- Whether the tokens of a kind end where they end, whatever is behind. -/
def Kind.isClosed : Kind → Bool
  | directive | number | string | poundName | operator => false
  | _ => true

theorem Token.isClosed_lexeme {t : Token} (closed : t.kind.isClosed = true) :
    t.lexeme.kind.isClosed = true := by
  have kinds : ∀ k : Kind, k.isClosed = true → k.unmarked.isClosed = true := by
    intro k
    cases k <;> simp [Kind.unmarked, Kind.isClosed]
  exact kinds t.kind closed

theorem lexical_of_map {l l' : Lexical} {n : Nat} {o : Option Nat}
    (h : o.map (l, ·) = some (l', n)) : l' = l := by
  obtain ⟨m, -, eq⟩ := Option.map_eq_some_iff.mp h
  exact (congrArg Prod.fst eq).symm

theorem Turn.not_opensFar {text rest : List Char} {l : Lexeme} (h : Turn text (some l) rest)
    (closed : l.kind.isClosed = true) : ∀ c ∈ text.head?, opensFar c = false := by
  intro c mem
  refine Bool.eq_false_iff.mpr fun far => ?_
  cases text with
  | nil => cases mem
  | cons d ds =>
    cases mem
    cases h with
    | angle first =>
      unfold isAngle Kind.ofAngle? at first
      split at first <;> first | cases far | cases first
    | @token _ _ l k found kind =>
      have closed : k.isClosed = true := closed
      obtain (rfl | rfl) | rfl : (c = '#' ∨ c = '/') ∨ c = '"' := by
        simpa [opensFar] using far
      · rw [List.cons_append, Lexical.front?_pound] at found
        have kinds : l = .directive ∨ l = .string ∨ l = .poundName := by
          rcases Option.or_eq_some_iff.mp found with is | ⟨-, found⟩
          · exact .inl (lexical_of_map is)
          · rcases Option.or_eq_some_iff.mp found with is | ⟨-, is⟩
            · exact .inr (.inl (lexical_of_map is))
            · exact .inr (.inr (lexical_of_map is))
        rcases kinds with rfl | rfl | rfl <;> cases kind <;> cases closed
      · rw [List.cons_append, Lexical.front?_slash] at found
        rcases Option.or_eq_some_iff.mp found with is | ⟨-, is⟩
        · obtain rfl := lexical_of_map is
          cases kind
        · obtain rfl : Lexical.operator = l := congrArg Prod.fst (Option.some.inj is)
          have others : ∀ p ∈ Kind.operators, p.1.toList.head? ≠ some '/' := by decide
          obtain rfl := Option.some.inj kind
          rcases Kind.ofOperator_cases (String.ofList ('/' :: ds)) with is | mem
          · rw [is] at closed
            cases closed
          · exact others _ mem (by simp)
      · rw [List.cons_append, Lexical.front?_quote] at found
        obtain rfl := lexical_of_map found
        cases kind
        cases closed

section
variable {source : List Char} {ts us : List Token} {w : String}

/-- The collapsed text of closed tokens keeps them in front of a text that begins with a blank
or a mark, and this one keeps its own. -/
theorem isTextOf_squash_append (clean : (lex source).stray? = none)
    (part : ts <:+: (lex source).delivered) (ends : EndsText ts)
    (closed : ∀ t ∈ ts, t.kind.isClosed = true) (h : Collapsible ts)
    (halts : Halts w.toList) (behind : IsTextOf w us) :
    IsTextOf (squash (Token.stretch ts) ++ w) (ts ++ us) := by
  obtain ⟨a, stand⟩ := exists_alone clean part ends
  have trimmed := stand.trimmed_stretch ends
  have text : (squash (Token.stretch ts) ++ w).toList =
      collapse (Token.stretch ts).toList ++ w.toList := by
    rw [squash_eq_collapse trimmed.head trimmed.last, String.toList_append, String.toList_ofList]
  have near : ∀ t ∈ ts, ∀ c ∈ t.text.toList.head?, opensFar c = false := by
    intro t mem
    obtain ⟨rest, turn⟩ := stand.exists_turn mem
    exact turn.not_opensFar (Token.isClosed_lexeme (closed t mem))
  have number : ∀ t ∈ ts, t.kind ≠ .number := fun t mem is =>
    absurd (closed t mem) (by simp [is, Kind.isClosed])
  have front : Lexes _ (ts.map Token.lexeme) w.toList :=
    h.lexes stand halts (fun t mem c head far => by simp [near t mem c head] at far)
      fun t mem is => absurd is (number t mem)
  rw [← List.append_nil w.toList] at front
  obtain ⟨alone, lexemes⟩ := lex_of_lexes (front.append (lexes_delivered behind.clean))
  rw [← text] at alone lexemes
  refine ⟨alone, ?_⟩
  rw [face_delivered alone, lexemes, faces_append _ ends.not_brace, ← face_infix clean part ends,
    ← face_delivered behind.clean, behind.tokens, List.map_append]

end

end Conformance
