import Conformance.Proofs.Token.Reading
import Conformance.Proofs.Token.Relocation

/-!
# Lexing two sources in a row

A source is put in front of another one, with a line feed between them.  The tokens of the
first may change by this: a `/*` that nothing has closed is an operator, and the second source
can close it.  If they stay in place, then the tokens of the second follow, as many lines
further down as the first source takes (`lex_join`, and `delivered_join` for what reaches the
grammar).

The invariant is that the lexer is at the same place in both runs, with the same layout
gathered.  Behind the last token of the first source only layout is left there, which is
gathered in front of the first token of the second (`lexAt_join`).
-/

namespace Conformance

open Pattern Lexical

/-! ## Lexing without fuel -/

/-- Lexing of a text from a place, with the layout that has gathered in front. -/
def lexAt (p : Position) (layout : String) (cs : List Char) : Lexed :=
  lexFrom cs.length p layout cs

/-- The same with a token in front. -/
def Lexed.cons (t : Token) (l : Lexed) : Lexed := { l with tokens := t :: l.tokens }

section
variable {p : Position} {layout : String} {text rest : List Char} {l : Lexical}

theorem lexFrom_eq_lexAt {fuel : Nat} {cs : List Char} (enough : cs.length ≤ fuel) :
    lexFrom fuel p layout cs = lexAt p layout cs := by
  rw [lexAt]
  induction fuel using Nat.strong_induction_on generalizing p layout cs with
  | _ fuel ih =>
    cases cs with
    | nil => cases fuel <;> rfl
    | cons c cs =>
      obtain ⟨n, rfl⟩ : ∃ n, fuel = n + 1 := ⟨fuel - 1, by simp at enough; omega⟩
      simp only [List.length_cons, Nat.add_le_add_iff_right] at enough
      cases match? : front? (c :: cs) with
      | none => simp [lexFrom, match?]
      | some pair =>
        obtain ⟨l, k⟩ := pair
        obtain ⟨text, rest, eq, found, positive⟩ := exists_front match?
        have lengths := congrArg List.length eq
        rw [List.length_cons, List.length_append] at lengths
        have same (p' : Position) (layout' : String) :
            lexFrom n p' layout' rest = lexFrom cs.length p' layout' rest := by
          rw [ih n (by omega) (by omega), ih cs.length (by omega) (by omega)]
        rw [List.length_cons, eq]
        cases kind : l.kind? text with
        | none => rw [lexFrom_layout found kind, lexFrom_layout found kind, same]
        | some k => rw [lexFrom_token found kind, lexFrom_token found kind, same]

theorem lexAt_layout (found : front? (text ++ rest) = some (l, text.length))
    (kind : l.kind? text = none) :
    lexAt p layout (text ++ rest) =
      lexAt (p.advance text) (layout ++ String.ofList text) rest := by
  have positive := (front?_bounds found).1
  obtain ⟨n, eq⟩ : ∃ n, (text ++ rest).length = n + 1 :=
    ⟨(text ++ rest).length - 1, by rw [List.length_append]; omega⟩
  rw [lexAt, eq, lexFrom_layout found kind]
  rw [List.length_append] at eq
  exact lexFrom_eq_lexAt (by omega)

theorem lexAt_token {k : Kind} (found : front? (text ++ rest) = some (l, text.length))
    (kind : l.kind? text = some k) :
    lexAt p layout (text ++ rest) =
      .cons ⟨k, layout, String.ofList text, p, p.advance text⟩ (lexAt (p.advance text) "" rest) := by
  have positive := (front?_bounds found).1
  obtain ⟨n, eq⟩ : ∃ n, (text ++ rest).length = n + 1 :=
    ⟨(text ++ rest).length - 1, by rw [List.length_append]; omega⟩
  rw [lexAt, eq, lexFrom_token found kind]
  rw [List.length_append] at eq
  rw [lexFrom_eq_lexAt (by omega)]
  rfl

theorem lexAt_stray {c : Char} {cs : List Char} (none : front? (c :: cs) = none) :
    lexAt p layout (c :: cs) = ⟨[], layout, some ⟨c, p⟩⟩ := by
  rw [lexAt, List.length_cons, lexFrom, none]

/-- What holds at the end of a text and at a stray character, and is kept by the rounds of the
lexer, holds of all lexing. -/
theorem lexing_induction {motive : Position → String → List Char → Prop}
    (done : ∀ p layout, motive p layout [])
    (stray : ∀ p layout c cs, front? (c :: cs) = none → motive p layout (c :: cs))
    (blank : ∀ p layout text rest l, front? (text ++ rest) = some (l, text.length) →
      l.kind? text = none → motive (p.advance text) (layout ++ String.ofList text) rest →
      motive p layout (text ++ rest))
    (token : ∀ p layout text rest l k, front? (text ++ rest) = some (l, text.length) →
      l.kind? text = some k → motive (p.advance text) "" rest → motive p layout (text ++ rest))
    (p : Position) (layout : String) (cs : List Char) : motive p layout cs := by
  generalize size : cs.length = n
  induction n using Nat.strong_induction_on generalizing p layout cs with
  | _ n ih =>
    cases cs with
    | nil => exact done p layout
    | cons c cs =>
      cases match? : front? (c :: cs) with
      | none => exact stray p layout c cs match?
      | some pair =>
        obtain ⟨l, k⟩ := pair
        obtain ⟨text, rest, eq, found, positive⟩ := exists_front match?
        have shorter : rest.length < n := by
          rw [← size, eq, List.length_append]
          omega
        rw [eq]
        cases kind : l.kind? text with
        | none => exact blank p layout text rest l found kind (ih _ shorter _ _ rest rfl)
        | some k => exact token p layout text rest l k found kind (ih _ shorter _ _ rest rfl)

end

/-! ## Other places -/

/-- A position some characters and lines further down. -/
def Position.down (characters lines : Nat) (p : Position) : Position :=
  ⟨p.offset + characters, p.line + lines, p.column⟩

/-- A token some characters and lines further down. -/
def Token.down (characters lines : Nat) (t : Token) : Token :=
  { t with start := t.start.down characters lines, stop := t.stop.down characters lines }

/-- Tokens with layout put in front of the first. -/
def Token.behind (layout : String) : List Token → List Token
  | [] => []
  | t :: ts => { t with layout := layout ++ t.layout } :: ts

section
variable (characters lines : Nat)

theorem Position.step_down (p : Position) (c : Char) :
    (p.down characters lines).step c = (p.step c).down characters lines := by
  unfold Position.step Position.down
  split <;> simp only [Position.mk.injEq, and_true] <;> omega

theorem Position.advance_down (p : Position) (cs : List Char) :
    (p.down characters lines).advance cs = (p.advance cs).down characters lines := by
  induction cs generalizing p with
  | nil => rfl
  | cons c cs ih => rw [advance_cons, advance_cons, step_down, ih]

/-- A text is lexed alike further down. -/
theorem lexAt_down (p : Position) (layout : String) (cs : List Char) :
    (lexAt (p.down characters lines) layout cs).tokens =
        (lexAt p layout cs).tokens.map (Token.down characters lines) ∧
      ((lexAt (p.down characters lines) layout cs).stray? = none ↔
        (lexAt p layout cs).stray? = none) := by
  induction p, layout, cs using lexing_induction with
  | done p layout => exact ⟨rfl, Iff.rfl⟩
  | stray p layout c cs none => simp [lexAt_stray none]
  | blank p layout text rest l found kind ih =>
    rw [lexAt_layout found kind, lexAt_layout found kind, Position.advance_down]
    exact ih
  | token p layout text rest l k found kind ih =>
    rw [lexAt_token found kind, lexAt_token found kind, Position.advance_down]
    refine ⟨?_, ih.2⟩
    simp only [Lexed.cons, List.map_cons, ih.1]
    rfl

/-- Layout that has gathered is put in front of the first token. -/
theorem lexAt_gathered (gathered : String) (p : Position) (layout : String) (cs : List Char) :
    (lexAt p (gathered ++ layout) cs).tokens =
        Token.behind gathered (lexAt p layout cs).tokens ∧
      ((lexAt p (gathered ++ layout) cs).stray? = none ↔ (lexAt p layout cs).stray? = none) := by
  induction p, layout, cs using lexing_induction with
  | done p layout => exact ⟨rfl, Iff.rfl⟩
  | stray p layout c cs none => simp [lexAt_stray none, Token.behind]
  | blank p layout text rest l found kind ih =>
    rw [lexAt_layout found kind, lexAt_layout found kind, String.append_assoc]
    exact ih
  | token p layout text rest l k found kind ih =>
    rw [lexAt_token found kind, lexAt_token found kind]
    exact ⟨rfl, Iff.rfl⟩

/-- No token begins in front of where lexing begins. -/
theorem offset_le_of_mem_lexAt {p : Position} {layout : String} {cs : List Char} {t : Token}
    (mem : t ∈ (lexAt p layout cs).tokens) : p.offset ≤ t.start.offset := by
  induction p, layout, cs using lexing_induction with
  | done p layout => cases mem
  | stray p layout c cs none =>
    rw [lexAt_stray none] at mem
    cases mem
  | blank p layout text rest l found kind ih =>
    rw [lexAt_layout found kind] at mem
    have further := ih mem
    rw [Position.offset_advance] at further
    omega
  | token p layout text rest l k found kind ih =>
    rw [lexAt_token found kind] at mem
    rcases List.mem_cons.mp mem with rfl | mem
    · exact Nat.le_refl _
    · have further := ih mem
      rw [Position.offset_advance] at further
      omega

end

/-! ## Layout in front of a line feed -/

/-- Blanks are gathered, and do not join with what is behind them. -/
theorem lexAt_blanks {p : Position} {layout : String} {blanks : List Char}
    (all : ∀ c ∈ blanks, isSpace c = true) (cs : List Char) :
    lexAt p layout (blanks ++ cs) =
      lexAt (p.advance blanks) (layout ++ String.ofList blanks) cs := by
  have round {p : Position} {layout : String} {a b : List Char}
      (all : ∀ c ∈ a, isSpace c = true) (stops : b.takeWhile isSpace = []) :
      lexAt p layout (a ++ b) = lexAt (p.advance a) (layout ++ String.ofList a) b := by
    cases a with
    | nil => simp
    | cons c a =>
      refine lexAt_layout (l := .space) ?_ rfl
      have whole : (c :: a ++ b).takeWhile isSpace = c :: a := by
        rw [List.takeWhile_append_of_pos all, stops, List.append_nil]
      rw [List.cons_append, front?_space (all c List.mem_cons_self), ← List.cons_append, run,
        whole]
  have split := List.takeWhile_append_dropWhile (p := isSpace) (l := cs)
  have stops : (cs.dropWhile isSpace).takeWhile isSpace = [] := by
    rw [List.takeWhile_eq_nil_iff]
    exact fun pos => List.dropWhile_get_zero_not isSpace cs pos
  have more : ∀ c ∈ cs.takeWhile isSpace, isSpace c = true := fun c => List.mem_takeWhile_imp
  have both : ∀ c ∈ blanks ++ cs.takeWhile isSpace, isSpace c = true := by
    intro c mem
    exact (List.mem_append.mp mem).elim (all c) (more c)
  rw [← split, ← List.append_assoc, round both stops, round more stops, Position.advance_append,
    String.ofList_append, String.append_assoc]

theorem comment_newline {cs : List Char} {n : Nat} (w : List Char) (h : Pattern.comment cs = some n) :
    Pattern.comment (cs ++ '\n' :: w) = some n := by
  unfold Pattern.comment at h
  split at h
  next cs =>
    have same : run inLine (cs ++ '\n' :: w) = run inLine cs := by
      rw [run, run, List.takeWhile_append]
      split
      next whole => simp [inLine, whole]
      next => rfl
    rw [← h, ← same]
    rfl
  next cs =>
    obtain ⟨k, found, rfl⟩ := Option.map_eq_some_iff.mp h
    have le := commentEnd_le found
    rw [← List.append_nil cs] at found
    show (commentEnd (cs ++ '\n' :: w)).map (· + 2) = _
    rw [commentEnd_relocate found le]
    rfl
  next => cases h

/-- A comment ends at the line feed at the latest. -/
theorem front?_comment_newline {cs : List Char} {n : Nat} (w : List Char)
    (found : front? cs = some (.comment, n)) : front? (cs ++ '\n' :: w) = some (.comment, n) := by
  obtain ⟨p, mem, is⟩ := exists_pattern found
  obtain rfl : p = Pattern.comment := by simpa [patterns] using mem
  have moved := comment_newline w is
  cases cs with
  | nil => cases is
  | cons c cs =>
    by_cases slash : c = '/'
    · subst slash
      rw [List.cons_append] at moved ⊢
      rw [front?_slash, moved]
      rfl
    · rw [comment_eq_none slash] at is
      cases is

/-- A round over layout is the same in front of a line feed. -/
theorem lexAt_layout_newline {p : Position} {layout : String} {text rest : List Char}
    {l : Lexical} (w : List Char) (found : front? (text ++ rest) = some (l, text.length))
    (kind : l.kind? text = none) :
    lexAt p layout (text ++ (rest ++ '\n' :: w)) =
      lexAt (p.advance text) (layout ++ String.ofList text) (rest ++ '\n' :: w) := by
  rcases comment_or_blanks found kind with rfl | all
  · have moved := front?_comment_newline w found
    rw [List.append_assoc] at moved
    exact lexAt_layout moved kind
  · exact lexAt_blanks all _

/-- The kind of a token, its text, and where it begins. -/
def Token.mark (t : Token) : Kind × String × Nat := (t.kind, t.text, t.start.offset)

/-- A token that stays at the front of a text is read in one round there. -/
theorem lexAt_of_stay {p : Position} {layout : String} {text behind : List Char} {k : Kind}
    {marks : List (Kind × String × Nat)} (some : text ≠ [])
    (stay : (k, String.ofList text, p.offset) :: marks <+:
      (lexAt p layout (text ++ behind)).tokens.map Token.mark) :
    lexAt p layout (text ++ behind) =
      .cons ⟨k, layout, String.ofList text, p, p.advance text⟩ (lexAt (p.advance text) "" behind) := by
  obtain ⟨c, cs, rfl⟩ := List.exists_cons_of_ne_nil some
  cases match? : front? (c :: cs ++ behind) with
  | none =>
    rw [List.cons_append] at match? stay
    rw [lexAt_stray match?] at stay
    cases List.prefix_nil.mp stay
  | some pair =>
    obtain ⟨l, n⟩ := pair
    obtain ⟨text, rest, eq, found, positive⟩ := exists_front match?
    rw [eq] at stay ⊢
    cases kind : l.kind? text with
    | none =>
      -- Behind layout every token begins further down.
      rw [lexAt_layout found kind] at stay
      obtain ⟨t, mem, mark⟩ := List.mem_map.mp (stay.subset List.mem_cons_self)
      have further := offset_le_of_mem_lexAt mem
      have here : t.start.offset = p.offset := congrArg (fun m => m.2.2) mark
      rw [Position.offset_advance] at further
      omega
    | some k' =>
      rw [lexAt_token found kind] at stay ⊢
      obtain ⟨same, -⟩ := List.cons_prefix_cons.mp stay
      obtain rfl : k = k' := congrArg (fun m => m.1) same
      obtain rfl : c :: cs = text := String.ofList_injective (congrArg (fun m => m.2.1) same)
      rw [List.append_cancel_left eq]

/-- Where the tokens of a source stay in place in front of a line feed, those of the text behind
it follow. -/
theorem lexAt_join {p : Position} {layout : String} {cs w : List Char}
    (clean : (lexAt p layout cs).stray? = none)
    (stay : (lexAt p layout cs).tokens.map Token.mark <+:
      (lexAt p layout (cs ++ '\n' :: w)).tokens.map Token.mark) :
    ∃ gathered, (lexAt p layout (cs ++ '\n' :: w)).tokens = (lexAt p layout cs).tokens ++
        (lexAt (p.advance (cs ++ ['\n'])) gathered w).tokens ∧
      (lexAt p layout (cs ++ '\n' :: w)).stray? =
        (lexAt (p.advance (cs ++ ['\n'])) gathered w).stray? := by
  induction p, layout, cs using lexing_induction with
  | done p layout =>
    have feed : lexAt p layout (['\n'] ++ w) = _ := lexAt_blanks (by simp [isSpace]) w
    refine ⟨layout ++ String.ofList ['\n'], ?_⟩
    rw [List.nil_append, ← List.singleton_append, feed]
    exact ⟨rfl, rfl⟩
  | stray p layout c cs none =>
    rw [lexAt_stray none] at clean
    cases clean
  | blank p layout text rest l found kind ih =>
    rw [lexAt_layout found kind] at clean
    rw [List.append_assoc, lexAt_layout_newline w found kind, lexAt_layout found kind] at stay ⊢
    rw [List.append_assoc, Position.advance_append]
    exact ih clean stay
  | token p layout text rest l k found kind ih =>
    have some : text ≠ [] := List.length_pos_iff.mp (front?_bounds found).1
    rw [lexAt_token found kind] at clean
    rw [lexAt_token found kind, List.append_assoc] at stay ⊢
    have round := lexAt_of_stay some stay
    rw [round] at stay ⊢
    obtain ⟨gathered, tokens, stray⟩ := ih clean (List.cons_prefix_cons.mp stay).2
    refine ⟨gathered, ?_, ?_⟩
    · rw [List.append_assoc, Position.advance_append]
      exact congrArg (List.cons _) tokens
    · rw [List.append_assoc, Position.advance_append]
      exact stray

theorem Position.line_advance (p : Position) (cs : List Char) :
    (p.advance cs).line = p.line + cs.count '\n' := by
  induction cs generalizing p with
  | nil => rfl
  | cons c cs ih =>
    rw [Position.advance_cons, ih, Position.step]
    split
    next feed => simp [feed]; omega
    next other => rw [List.count_cons_of_ne other]

/-- Behind a source and a line feed lexing begins further down. -/
theorem Position.advance_newline (cs : List Char) :
    Position.origin.advance (cs ++ ['\n']) =
      Position.origin.down (cs.length + 1) (cs.count '\n' + 1) := by
  rw [Position.advance_append, Position.advance_cons, Position.advance_nil, Position.step,
    if_pos rfl, Position.offset_advance, Position.line_advance]
  simp [Position.down, Position.origin]
  omega

/-- The tokens of a source behind another one, where those of the other stay in place. -/
theorem lex_join {cs w : List Char} (clean : (lex cs).stray? = none)
    (stay : (lex cs).tokens.map Token.mark <+: (lex (cs ++ '\n' :: w)).tokens.map Token.mark) :
    ∃ gathered, (lex (cs ++ '\n' :: w)).tokens = (lex cs).tokens ++ Token.behind gathered
        ((lex w).tokens.map (Token.down (cs.length + 1) (cs.count '\n' + 1))) ∧
      ((lex (cs ++ '\n' :: w)).stray? = none ↔ (lex w).stray? = none) := by
  obtain ⟨gathered, tokens, stray⟩ := lexAt_join clean stay
  have front := lexAt_gathered gathered (Position.origin.advance (cs ++ ['\n'])) "" w
  rw [String.append_empty, Position.advance_newline] at front
  have moved := lexAt_down (cs.length + 1) (cs.count '\n' + 1) Position.origin "" w
  rw [Position.advance_newline] at tokens stray
  refine ⟨gathered, ?_, ?_⟩
  · show (lexAt _ _ _).tokens = _
    rw [tokens, front.1, moved.1]
    rfl
  · show (lexAt _ _ _).stray? = none ↔ _
    rw [stray, front.2, moved.2]
    rfl

/-! ## The stream -/

namespace Token

section
variable (characters lines : Nat)

theorem pieces_down (t : Token) (i : Nat) (cs : List Char) :
    (t.down characters lines).pieces i cs =
      (t.pieces i cs).map (Token.down characters lines) := by
  induction cs generalizing i with
  | nil => rfl
  | cons c cs ih =>
    rw [pieces, pieces, List.map_cons, ih]
    congr 1
    simp only [Token.down, Position.down, Position.shift, Token.mk.injEq, Position.mk.injEq,
      true_and, and_true]
    omega

theorem split_down (t : Token) :
    (t.down characters lines).split = t.split.map (Token.down characters lines) := by
  have run : (t.down characters lines).isRun = t.isRun := rfl
  rw [split, split, run]
  split
  · exact pieces_down characters lines t 0 t.text.toList
  · rfl

theorem flatMap_split_down (ts : List Token) :
    (ts.map (Token.down characters lines)).flatMap split =
      (ts.flatMap split).map (Token.down characters lines) := by
  rw [List.flatMap_map, List.map_flatMap]
  congr 1
  funext t
  exact split_down characters lines t

end

/-- Braces are marked by kinds and texts. -/
theorem markObservers_map {f : Token → Token} (text : ∀ t, (f t).text = t.text)
    (kind : ∀ t, (f t).kind = t.kind)
    (mark : ∀ t, f { t with kind := .observerBrace } = { f t with kind := .observerBrace })
    (ts : List Token) : markObservers (ts.map f) = (markObservers ts).map f := by
  induction ts with
  | nil => rfl
  | cons t ts ih =>
    have opens (t : Token) : (f t).opensObserver = t.opensObserver := by
      rw [opensObserver, opensObserver, kind, text]
    have head : (ts.map f).head?.any opensObserver = ts.head?.any opensObserver := by
      cases ts with
      | nil => rfl
      | cons u us => exact opens u
    rw [List.map_cons, markObservers, markObservers, List.map_cons, ih, marked, marked, head, kind]
    congr 1
    split
    · exact (mark t).symm
    · rfl

theorem markObservers_down (characters lines : Nat) (ts : List Token) :
    markObservers (ts.map (Token.down characters lines)) =
      (markObservers ts).map (Token.down characters lines) :=
  markObservers_map (f := down characters lines) (fun _ => rfl) (fun _ => rfl) (fun _ => rfl) ts

section
variable (gathered : String)

theorem behind_append {ts us : List Token} (some : ts ≠ []) :
    behind gathered (ts ++ us) = behind gathered ts ++ us := by
  cases ts with
  | nil => contradiction
  | cons t ts => rfl

theorem split_ne_nil (t : Token) : t.split ≠ [] := by
  unfold split
  split
  next run =>
    intro none
    have long : 2 ≤ t.text.length := by
      simp only [isRun, Bool.and_eq_true, decide_eq_true_eq] at run
      exact run.1.2
    cases text : t.text.toList with
    | nil => simp [String.length_toList ▸ congrArg List.length text] at long
    | cons c cs =>
      rw [text, pieces] at none
      cases none
  next => simp

theorem flatMap_split_behind (ts : List Token) :
    (behind gathered ts).flatMap split = behind gathered (ts.flatMap split) := by
  cases ts with
  | nil => rfl
  | cons t ts =>
    rw [behind, List.flatMap_cons, List.flatMap_cons, behind_append gathered t.split_ne_nil]
    congr 1
    have run : isRun { t with layout := gathered ++ t.layout } = t.isRun := rfl
    have later (i : Nat) (cs : List Char) :
        pieces { t with layout := gathered ++ t.layout } (i + 1) cs = t.pieces (i + 1) cs := by
      induction cs generalizing i with
      | nil => rfl
      | cons c cs ih => rw [pieces, pieces, ih]; rfl
    rw [split, split, run]
    split
    · show pieces _ 0 t.text.toList = _
      cases t.text.toList with
      | nil => rfl
      | cons c cs => rw [pieces, pieces, behind, later]; rfl
    · rfl

theorem markObservers_behind (ts : List Token) :
    markObservers (behind gathered ts) = behind gathered (markObservers ts) := by
  cases ts with
  | nil => rfl
  | cons t ts =>
    rw [behind, markObservers, markObservers, behind, marked, marked]
    congr 1
    show (if _ then _ else _) = _
    split <;> rfl

end

theorem getLast?_markObservers (ts : List Token) : (markObservers ts).getLast? = ts.getLast? := by
  induction ts with
  | nil => rfl
  | cons t ts ih =>
    rw [markObservers, List.getLast?_cons, List.getLast?_cons, ih]
    cases ts with
    | nil => simp [marked]
    | cons u us => simp [List.getLast?_cons]

/-- Only a brace in front of the next token is marked by it. -/
theorem markObservers_append {ts : List Token} (us : List Token)
    (off : ∀ t, ts.getLast? = some t → t.kind ≠ .leftBrace) :
    markObservers (ts ++ us) = markObservers ts ++ markObservers us := by
  induction ts with
  | nil => rfl
  | cons t ts ih =>
    have further := ih fun u last => off u (by rw [List.getLast?_cons, last]; rfl)
    rw [List.cons_append, markObservers, further, markObservers, List.cons_append]
    congr 1
    cases ts with
    | cons u ts => rfl
    | nil =>
      have other : (t.kind == .leftBrace) = false := beq_false_of_ne (off t rfl)
      simp [marked, other]

end Token

/-- What reaches the grammar of two sources in a row. -/
theorem delivered_join {cs w : List Char} (clean : (lex cs).stray? = none)
    (clean' : (lex w).stray? = none)
    (stay : (lex cs).tokens.map Token.mark <+: (lex (cs ++ '\n' :: w)).tokens.map Token.mark)
    (off : ∀ t, (lex cs).delivered.getLast? = some t → t.kind ≠ .leftBrace) :
    (lex (cs ++ '\n' :: w)).stray? = none ∧
      ∃ gathered, (lex (cs ++ '\n' :: w)).delivered = (lex cs).delivered ++
        Token.behind gathered
          ((lex w).delivered.map (Token.down (cs.length + 1) (cs.count '\n' + 1))) := by
  obtain ⟨gathered, tokens, stray⟩ := lex_join clean stay
  have clean'' := stray.mpr clean'
  refine ⟨clean'', gathered, ?_⟩
  rw [delivered_of_clean clean, Token.stream, Token.getLast?_markObservers] at off
  rw [delivered_of_clean clean, delivered_of_clean clean', delivered_of_clean clean'',
    Token.stream, tokens, List.flatMap_append,
    Token.markObservers_append _ off, Token.flatMap_split_behind, Token.flatMap_split_down,
    Token.markObservers_behind, Token.markObservers_down, Token.stream, Token.stream]

end Conformance
