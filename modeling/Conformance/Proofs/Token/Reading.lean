import Conformance.Proofs.Token.Front
import Conformance.Token.Stream

/-!
# Lexing without places

What the lexer makes of a text that stands in front of another one.  A `Lexeme` is a token
without its place and its layout, and `Lexes a ls u` says that the text `a` in front of `u`
is lexed as `ls`.  One `Turn` of it takes a blank, a comment, one angle of a run of angles,
or the text of any other token, so the ends of texts may be anywhere among blanks and
angles.

`Stand` says the same of tokens with their layout.
-/

namespace Conformance

/-! ## Lexemes -/

/-- A token without its place. -/
structure Lexeme where
  /-- What the grammar takes it for. -/
  kind : Kind
  /-- The text. -/
  text : String
deriving DecidableEq, Repr

/-- The kind of a token before braces are marked. -/
def Kind.unmarked : Kind → Kind
  | observerBrace => leftBrace
  | k => k

/-- What a token is without its place and without the mark of a brace. -/
def Token.lexeme (t : Token) : Lexeme := ⟨t.kind.unmarked, t.text⟩

/-- An angle, a question mark or an exclamation mark. -/
def isAngle (c : Char) : Bool := (Kind.ofAngle? c).isSome

/-- The lexeme of an angle. -/
def Lexeme.ofAngle (c : Char) : Lexeme :=
  ⟨(Kind.ofAngle? c).getD .operator, String.singleton c⟩

/-- What becomes of a matched text. -/
def Lexical.lexemes (l : Lexical) (text : List Char) : List Lexeme :=
  match l.kind? text with
  | none => []
  | some k =>
    if l = .operator ∧ text.all isAngle = true then text.map Lexeme.ofAngle
    else [⟨k, String.ofList text⟩]

/-! ## Turns -/

open Pattern Lexical

/-- The lexer takes a text in front of another one, for a lexeme or for none. -/
inductive Turn : (text : List Char) → Option Lexeme → (rest : List Char) → Prop
  /-- A blank. -/
  | blank {c : Char} {rest : List Char} (space : isSpace c = true) : Turn [c] none rest
  /-- A comment. -/
  | comment {text rest : List Char}
      (found : front? (text ++ rest) = some (.comment, text.length)) : Turn text none rest
  /-- The first of some angles. -/
  | angle {c : Char} {rest : List Char} (first : isAngle c = true)
      (others : ∀ d ∈ rest.takeWhile isOperatorChar, isAngle d = true) :
      Turn [c] (some (.ofAngle c)) rest
  /-- Any other token. -/
  | token {text rest : List Char} {l : Lexical} {k : Kind}
      (found : front? (text ++ rest) = some (l, text.length)) (kind : l.kind? text = some k)
      (whole : ¬(l = .operator ∧ ∀ c ∈ text, isAngle c = true)) :
      Turn text (some ⟨k, String.ofList text⟩) rest

/-- A text in front of another one is lexed as some lexemes. -/
inductive Lexes : (text : List Char) → List Lexeme → (rest : List Char) → Prop
  | done {rest : List Char} : Lexes [] [] rest
  | turn {text a rest : List Char} {o : Option Lexeme} {ls : List Lexeme}
      (first : Turn text o (a ++ rest)) (others : Lexes a ls rest) :
      Lexes (text ++ a) (o.toList ++ ls) rest

/-- Tokens with their layout are lexed where they stand, in front of a text. -/
inductive Stand : List Token → (text rest : List Char) → Prop
  | nil {rest : List Char} : Stand [] [] rest
  | cons {t : Token} {ts : List Token} {a rest : List Char}
      (layout : Lexes t.layout.toList [] (t.text.toList ++ (a ++ rest)))
      (text : Turn t.text.toList (some t.lexeme) (a ++ rest)) (others : Stand ts a rest) :
      Stand (t :: ts) (t.layout.toList ++ (t.text.toList ++ a)) rest

theorem Turn.ne_nil {text rest : List Char} {o : Option Lexeme} (h : Turn text o rest) :
    text ≠ [] := by
  rintro rfl
  cases h with
  | comment found => exact absurd (front?_bounds found).1 (by simp)
  | token found => exact absurd (front?_bounds found).1 (by simp)

namespace Lexes

variable {a b rest : List Char} {ls ms : List Lexeme}

theorem single {o : Option Lexeme} (h : Turn a o rest) : Lexes a o.toList rest := by
  have whole : Lexes (a ++ []) (o.toList ++ []) rest := .turn h .done
  simpa using whole

theorem append (first : Lexes a ls (b ++ rest)) (second : Lexes b ms rest) :
    Lexes (a ++ b) (ls ++ ms) rest := by
  generalize eq : b ++ rest = behind at first
  induction first with
  | done => exact second
  | turn first others ih =>
    subst eq
    rw [List.append_assoc, List.append_assoc]
    rw [← List.append_assoc] at first
    exact .turn first (ih rfl)

/-- Blanks are lexed as nothing. -/
theorem blanks (all : ∀ c ∈ a, isSpace c = true) : Lexes a [] rest := by
  induction a with
  | nil => exact .done
  | cons c cs ih =>
    have others := ih fun d mem => all d (List.mem_cons_of_mem c mem)
    exact .turn (.blank (all c List.mem_cons_self)) others

/-- A blank is lexed as nothing. -/
theorem blank {c : Char} (space : isSpace c = true) : Lexes [c] [] rest :=
  .turn (.blank space) .done

/-- What has no characters has no lexemes. -/
theorem eq_nil (h : Lexes [] ls rest) : ls = [] := by
  generalize eq : [] = a at h
  cases h with
  | done => rfl
  | turn first others => exact absurd (List.append_eq_nil_iff.mp eq.symm).1 first.ne_nil

end Lexes

theorem Token.lexeme_marked (t : Token) (rest : List Token) :
    (t.marked rest).lexeme = t.lexeme := by
  unfold marked
  split
  next opens =>
    have brace := eq_of_beq (Bool.and_eq_true_iff.mp opens).1
    simp [lexeme, brace, Kind.unmarked]
  next => rfl

namespace Stand

variable {ts us : List Token} {a b rest : List Char}

theorem append (first : Stand ts a (b ++ rest)) (second : Stand us b rest) :
    Stand (ts ++ us) (a ++ b) rest := by
  generalize eq : b ++ rest = behind at first
  induction first with
  | nil => exact second
  | @cons t ts a behind layout text others ih =>
    subst eq
    rw [List.append_assoc, List.append_assoc]
    rw [← List.append_assoc a] at layout text
    exact .cons layout text (ih rfl)

/-- The lexemes of tokens where they stand. -/
theorem lexes (h : Stand ts a rest) : Lexes a (ts.map Token.lexeme) rest := by
  induction h with
  | nil => exact .done
  | cons layout text others ih =>
    rw [← List.append_assoc] at layout
    exact layout.append (.turn text ih)

/-- Marking braces changes neither text nor layout. -/
theorem markObservers (h : Stand ts a rest) : Stand (Token.markObservers ts) a rest := by
  induction h with
  | nil => exact .nil
  | @cons t ts a rest layout text others ih =>
    have before : (t.marked ts).layout = t.layout := by
      unfold Token.marked
      split <;> rfl
    have same := Token.text_marked t ts
    rw [Token.markObservers, ← same, ← before]
    rw [← same, ← before] at layout
    rw [← same, ← t.lexeme_marked ts] at text
    exact .cons layout text ih

end Stand

/-! ## From the lexer -/

/-- A run of angles is lexed angle by angle. -/
theorem turn_angle {c : Char} {cs rest : List Char} (all : ∀ d ∈ c :: cs, isAngle d = true)
    (stops : ∀ d ∈ rest.takeWhile isOperatorChar, isAngle d = true) :
    Turn [c] (some (.ofAngle c)) (cs ++ rest) := by
  refine .angle (all c List.mem_cons_self) fun d mem => ?_
  rw [List.takeWhile_append] at mem
  split at mem
  · rcases List.mem_append.mp mem with here | later
    · exact all d (List.mem_cons_of_mem c here)
    · exact stops d later
  · exact all d (List.mem_cons_of_mem c ((List.takeWhile_prefix _).subset mem))

theorem unmarked_ofAngle (c : Char) :
    ((Kind.ofAngle? c).getD .operator).unmarked = (Kind.ofAngle? c).getD .operator := by
  unfold Kind.ofAngle?
  split <;> rfl

theorem lexemes_pieces (t : Token) (i : Nat) (cs : List Char) :
    (t.pieces i cs).map Token.lexeme = cs.map Lexeme.ofAngle := by
  induction cs generalizing i with
  | nil => rfl
  | cons c cs ih => simp [Token.pieces, Token.lexeme, Lexeme.ofAngle, unmarked_ofAngle, ih]

theorem stand_pieces {t : Token} {i : Nat} {cs rest : List Char}
    (here : ∀ d ∈ cs, isAngle d = true)
    (stops : ∀ d ∈ rest.takeWhile isOperatorChar, isAngle d = true)
    (layout : i = 0 → Lexes t.layout.toList [] (cs ++ rest)) :
    Stand (t.pieces i cs) ((if i = 0 ∧ cs ≠ [] then t.layout.toList else []) ++ cs) rest := by
  induction cs generalizing i with
  | nil => simpa [Token.pieces] using Stand.nil
  | cons c cs ih =>
    have others := ih (i := i + 1) (fun d mem => here d (List.mem_cons_of_mem c mem)) (by simp)
    rw [if_neg (by simp), List.nil_append] at others
    have before : Lexes (if i = 0 then t.layout else "").toList [] (c :: cs ++ rest) := by
      split
      next first => exact layout first
      next => exact .done
    have text := turn_angle here stops
    have stand := Stand.cons (t := { kind := (Kind.ofAngle? c).getD .operator
                                     layout := if i = 0 then t.layout else ""
                                     text := String.singleton c
                                     start := t.start.shift i
                                     stop := t.start.shift (i + 1) })
      (by simpa using before) (by simpa [Token.lexeme, unmarked_ofAngle, Lexeme.ofAngle] using text)
      others
    by_cases first : i = 0
    · simpa [Token.pieces, first] using stand
    · simpa [Token.pieces, first] using stand

theorem Kind.ofWord_cases (w : String) : ofWord w = .name ∨ (w, ofWord w) ∈ reserved := by
  cases found : reserved.lookup w with
  | none => exact .inl (by rw [ofWord, found]; rfl)
  | some k =>
    obtain ⟨front, back, eq, -⟩ := List.lookup_eq_some_iff.mp found
    have mem : (w, k) ∈ reserved := by simp [eq]
    exact .inr (by rw [ofWord, found]; exact mem)

theorem Kind.ofOperator_cases (w : String) :
    ofOperator w = .operator ∨ (w, ofOperator w) ∈ operators := by
  cases found : operators.lookup w with
  | none => exact .inl (by rw [ofOperator, found]; rfl)
  | some k =>
    obtain ⟨front, back, eq, -⟩ := List.lookup_eq_some_iff.mp found
    have mem : (w, k) ∈ operators := by simp [eq]
    exact .inr (by rw [ofOperator, found]; exact mem)

/-- The kinds that a pattern makes. -/
def Lexical.kinds : Lexical → List Kind
  | directive => [.directive]
  | number => [.number]
  | word => .name :: Kind.reserved.map Prod.snd
  | string => [.string]
  | poundName => [.poundName]
  | operator => .operator :: Kind.operators.map Prod.snd
  | mark => [.backslash, .atSign, .colon, .comma, .dot, .semicolon, .leftBrace, .rightBrace,
      .leftParen, .rightParen, .leftSquare, .rightSquare]
  | comment | space => []

theorem Lexical.mem_kinds {l : Lexical} {text : List Char} {k : Kind}
    (kind : l.kind? text = some k) : k ∈ l.kinds := by
  cases l with
  | word =>
    obtain rfl := Option.some.inj kind
    rcases Kind.ofWord_cases (String.ofList text) with is | mem
    · exact is ▸ List.mem_cons_self
    · exact List.mem_cons_of_mem _ (List.mem_map_of_mem mem)
  | operator =>
    obtain rfl := Option.some.inj kind
    rcases Kind.ofOperator_cases (String.ofList text) with is | mem
    · exact is ▸ List.mem_cons_self
    · exact List.mem_cons_of_mem _ (List.mem_map_of_mem mem)
  | mark =>
    obtain ⟨c, -, is⟩ := Option.bind_eq_some_iff.mp kind
    unfold Kind.ofMark? at is
    split at is <;> cases is <;> decide
  | directive | number | string | poundName =>
    obtain rfl := Option.some.inj kind
    exact List.mem_cons_self
  | comment | space => cases kind

/-- No text by itself is an observer brace. -/
theorem Lexical.kind?_ne_observer (l : Lexical) (text : List Char) :
    l.kind? text ≠ some .observerBrace := by
  intro kind
  have none : ∀ l : Lexical, Kind.observerBrace ∉ l.kinds := by
    intro l
    cases l <;> decide
  exact none l (mem_kinds kind)

theorem Lexical.unmarked_kind? {l : Lexical} {text : List Char} {k : Kind}
    (kind : l.kind? text = some k) : k.unmarked = k := by
  have ne : k ≠ .observerBrace := by
    rintro rfl
    exact l.kind?_ne_observer text kind
  cases k <;> first | rfl | exact absurd rfl ne

/-- A single angle has the kind that runs give it. -/
theorem ofOperator_angle {c : Char} (angle : isAngle c = true) :
    Kind.ofOperator (String.ofList [c]) = (Kind.ofAngle? c).getD .operator := by
  unfold isAngle Kind.ofAngle? at angle
  split at angle <;> first | decide | cases angle

theorem ofOperator_angles {c d : Char} {cs : List Char} (angle : isAngle c = true) :
    Kind.ofOperator (String.ofList (c :: d :: cs)) = .operator := by
  have others : ∀ p ∈ Kind.operators,
      p.1.toList.tail = [] ∨ p.1.toList.head?.any isAngle = false := by decide
  rcases Kind.ofOperator_cases (String.ofList (c :: d :: cs)) with is | mem
  · exact is
  · rcases others _ mem with alone | no
    · simp at alone
    · simp [angle] at no

/-- Only the operator pattern makes operators. -/
theorem Lexical.eq_operator {l : Lexical} {text : List Char}
    (kind : l.kind? text = some .operator) : l = .operator := by
  have only : ∀ l : Lexical, Kind.operator ∈ l.kinds → l = .operator := by
    intro l
    cases l <;> decide
  exact only l (mem_kinds kind)

/-- A run is what the operator pattern takes, if it is angles and more than one. -/
theorem isRun_iff {l : Lexical} {k : Kind} {layout : String} {text : List Char} {p q : Position}
    (kind : l.kind? text = some k) :
    Token.isRun ⟨k, layout, String.ofList text, p, q⟩ = true ↔
      2 ≤ text.length ∧ l = .operator ∧ ∀ c ∈ text, isAngle c = true := by
  have parts : Token.isRun ⟨k, layout, String.ofList text, p, q⟩ = true ↔
      (k = .operator ∧ 2 ≤ text.length) ∧ ∀ c ∈ text, isAngle c = true := by
    simp [Token.isRun, isAngle]
  rw [parts]
  constructor
  · rintro ⟨⟨rfl, several⟩, angles⟩
    exact ⟨several, Lexical.eq_operator kind, angles⟩
  · rintro ⟨several, rfl, angles⟩
    match text, several, angles with
    | c :: d :: cs, several, angles =>
      have is := Option.some.inj kind
      rw [ofOperator_angles (angles c List.mem_cons_self)] at is
      exact ⟨⟨is.symm, several⟩, angles⟩

theorem isAngle_operator {c : Char} (h : isAngle c = true) :
    isOperatorChar c = true ∧ c ≠ '/' := by
  unfold isAngle Kind.ofAngle? at h
  split at h <;> first | decide | cases h

/-- Behind a whole run of angles no operator goes on. -/
theorem takeWhile_behind_angles {text rest : List Char}
    (found : front? (text ++ rest) = some (.operator, text.length))
    (angles : ∀ c ∈ text, isAngle c = true) : rest.takeWhile isOperatorChar = [] := by
  cases text with
  | nil => exact absurd (front?_bounds found).1 (by simp)
  | cons c cs =>
    obtain ⟨isOperator, slash⟩ := isAngle_operator (angles c List.mem_cons_self)
    have all : ∀ d ∈ c :: cs, isOperatorChar d = true :=
      fun d mem => (isAngle_operator (angles d mem)).1
    have length : run isOperatorChar (c :: cs ++ rest) = (c :: cs).length := by
      have same := (front?_operator isOperator slash).symm.trans found
      exact (Prod.mk.inj (Option.some.inj same)).2
    rw [run, List.takeWhile_append_of_pos all, List.length_append] at length
    exact List.length_eq_zero_iff.mp (by omega)

/-- A token stands where its text is matched behind its layout. -/
theorem stand_split {l : Lexical} {k : Kind} {layout : String} {text rest : List Char}
    {p q : Position} (gathered : Lexes layout.toList [] (text ++ rest))
    (found : front? (text ++ rest) = some (l, text.length)) (kind : l.kind? text = some k) :
    Stand (Token.split ⟨k, layout, String.ofList text, p, q⟩) (layout.toList ++ text) rest := by
  by_cases angles : l = .operator ∧ ∀ c ∈ text, isAngle c = true
  · obtain ⟨rfl, angles⟩ := angles
    have behind := takeWhile_behind_angles found angles
    have stops : ∀ d ∈ rest.takeWhile isOperatorChar, isAngle d = true := by simp [behind]
    cases text with
    | nil => exact absurd (front?_bounds found).1 (by simp)
    | cons c cs =>
      unfold Token.split
      split
      next run =>
        have stand := stand_pieces (t := ⟨k, layout, String.ofList (c :: cs), p, q⟩) (i := 0)
          angles stops fun _ => gathered
        simpa using stand
      next whole =>
        have single : cs = [] := by
          cases cs with
          | nil => rfl
          | cons d cs => exact absurd ((isRun_iff kind).mpr ⟨by simp, rfl, angles⟩) whole
        subst single
        have is : k = (Kind.ofAngle? c).getD .operator := by
          rw [← ofOperator_angle (angles c List.mem_cons_self)]
          exact (Option.some.inj kind).symm
        have turn := turn_angle angles stops
        have stand : Stand [⟨k, layout, String.ofList [c], p, q⟩] _ rest := .cons
          (by simpa using gathered)
          (by simpa [Token.lexeme, Lexical.unmarked_kind? kind, Lexeme.ofAngle, ← is] using turn)
          .nil
        simpa using stand
  · have turn := Turn.token found kind angles
    have whole : Token.isRun ⟨k, layout, String.ofList text, p, q⟩ = false :=
      Bool.eq_false_iff.mpr fun run => angles ((isRun_iff kind).mp run).2
    have stand : Stand [⟨k, layout, String.ofList text, p, q⟩] _ rest := .cons
      (by simpa using gathered)
      (by simpa [Token.lexeme, Lexical.unmarked_kind? kind] using turn) .nil
    simpa [Token.split, whole] using stand

/-! ### Rounds of the lexer -/

section
variable {fuel : Nat} {p : Position} {layout : String} {text rest : List Char} {l : Lexical}

theorem lexFrom_layout (found : front? (text ++ rest) = some (l, text.length))
    (kind : l.kind? text = none) :
    lexFrom (fuel + 1) p layout (text ++ rest) =
      lexFrom fuel (p.advance text) (layout ++ String.ofList text) rest := by
  cases text with
  | nil => exact absurd (front?_bounds found).1 (by simp)
  | cons c cs =>
    rw [List.cons_append] at found ⊢
    rw [lexFrom, found]
    dsimp only
    rw [← List.cons_append, List.take_left, List.drop_left, kind]

theorem lexFrom_token {k : Kind} (found : front? (text ++ rest) = some (l, text.length))
    (kind : l.kind? text = some k) :
    lexFrom (fuel + 1) p layout (text ++ rest) =
      { lexFrom fuel (p.advance text) "" rest with
        tokens := ⟨k, layout, String.ofList text, p, p.advance text⟩ ::
          (lexFrom fuel (p.advance text) "" rest).tokens } := by
  cases text with
  | nil => exact absurd (front?_bounds found).1 (by simp)
  | cons c cs =>
    rw [List.cons_append] at found ⊢
    rw [lexFrom, found]
    dsimp only
    rw [← List.cons_append, List.take_left, List.drop_left, kind]

theorem lexFrom_stray {c : Char} {cs : List Char} (none : front? (c :: cs) = none) :
    (lexFrom (fuel + 1) p layout (c :: cs)).stray?.isSome = true := by
  rw [lexFrom, none]
  rfl

/-- What a match splits a text into. -/
theorem exists_front {cs : List Char} {n : Nat} (found : front? cs = some (l, n)) :
    ∃ text rest, cs = text ++ rest ∧ front? (text ++ rest) = some (l, text.length) ∧
      0 < text.length := by
  obtain ⟨positive, le⟩ := front?_bounds found
  have length : (cs.take n).length = n := List.length_take_of_le le
  refine ⟨cs.take n, cs.drop n, (List.take_append_drop n cs).symm, ?_, ?_⟩
  · rw [List.take_append_drop, length]
    exact found
  · rw [length]
    exact positive

end

theorem takeWhile_of_run {p : Char → Bool} {text rest : List Char}
    (h : run p (text ++ rest) = text.length) : (text ++ rest).takeWhile p = text := by
  have front := List.takeWhile_prefix p (l := text ++ rest)
  exact (List.prefix_of_prefix_length_le front (List.prefix_append text rest)
    (Nat.le_of_eq h)).eq_of_length h

/-- Layout is a comment or blanks. -/
theorem comment_or_blanks {l : Lexical} {text rest : List Char}
    (found : front? (text ++ rest) = some (l, text.length)) (kind : l.kind? text = none) :
    l = .comment ∨ ∀ c ∈ text, isSpace c = true := by
  cases l with
  | comment => exact .inl rfl
  | space =>
    obtain ⟨p, mem, is⟩ := exists_pattern found
    have space : p = Pattern.space := by simpa [patterns] using mem
    subst space
    have length : run isSpace (text ++ rest) = text.length := by
      unfold Pattern.space at is
      split at is
      next => exact Option.some.inj is
      next => cases is
    refine .inr fun c mem => ?_
    rw [← takeWhile_of_run length] at mem
    exact List.mem_takeWhile_imp mem
  | directive => cases kind
  | number => cases kind
  | word => cases kind
  | string => cases kind
  | poundName => cases kind
  | operator => cases kind
  | mark =>
    obtain ⟨p, mem, is⟩ := exists_pattern found
    have mark : p = Pattern.mark := by simpa [patterns] using mem
    subst mark
    cases text with
    | nil => exact absurd (front?_bounds found).1 (by simp)
    | cons c cs =>
      have none : Kind.ofMark? c = none := kind
      simp [Pattern.mark, none] at is

/-- Blanks and comments are lexed as nothing. -/
theorem lexes_layout {l : Lexical} {text rest : List Char}
    (found : front? (text ++ rest) = some (l, text.length)) (kind : l.kind? text = none) :
    Lexes text [] rest := by
  rcases comment_or_blanks found kind with rfl | all
  · exact .single (.comment found)
  · exact .blanks all

/-- The tokens of a text stand in it. -/
theorem stand_lexFrom (fuel : Nat) {p : Position} {layout : String} {cs : List Char}
    (enough : cs.length ≤ fuel) (gathered : Lexes layout.toList [] cs)
    (clean : (lexFrom fuel p layout cs).stray? = none) :
    ∃ a rest, layout.toList ++ cs = a ++ rest ∧
      Stand ((lexFrom fuel p layout cs).tokens.flatMap Token.split) a rest ∧
      Lexes rest [] [] := by
  induction fuel generalizing p layout cs with
  | zero =>
    obtain rfl := List.length_eq_zero_iff.mp (Nat.le_zero.mp enough)
    exact ⟨[], layout.toList, by simp, .nil, gathered⟩
  | succ fuel ih =>
    cases cs with
    | nil => exact ⟨[], layout.toList, by simp, .nil, gathered⟩
    | cons c cs =>
      cases match? : front? (c :: cs) with
      | none =>
        have stray : (lexFrom (fuel + 1) p layout (c :: cs)).stray?.isSome = true :=
          lexFrom_stray match?
        rw [clean] at stray
        cases stray
      | some pair =>
        obtain ⟨l, n⟩ := pair
        obtain ⟨text, rest, eq, found, positive⟩ := exists_front match?
        have shorter : rest.length ≤ fuel := by
          have lengths := congrArg List.length eq
          rw [List.length_append] at lengths
          omega
        rw [eq] at clean gathered ⊢
        cases kind : l.kind? text with
        | none =>
          have further : Lexes (layout ++ String.ofList text).toList [] rest := by
            rw [String.toList_append, String.toList_ofList]
            exact gathered.append (lexes_layout found kind)
          rw [lexFrom_layout found kind] at clean ⊢
          obtain ⟨a, behind, whole, stand, trailing⟩ := ih shorter further clean
          exact ⟨a, behind, by simpa using whole, stand, trailing⟩
        | some k =>
          rw [lexFrom_token found kind] at clean ⊢
          have gathered' : Lexes "".toList [] rest := .done
          obtain ⟨a, behind, whole, stand, trailing⟩ := ih shorter gathered' clean
          have whole : rest = a ++ behind := whole
          rw [whole] at gathered found
          have here := stand_split (p := p) (q := p.advance text) gathered found kind
          refine ⟨layout.toList ++ text ++ a, behind, by simp [whole], ?_, trailing⟩
          rw [List.flatMap_cons]
          exact here.append stand

/-- All of the stream reaches the grammar, if nothing in the source is stray. -/
theorem delivered_of_clean {source : List Char} (clean : (lex source).stray? = none) :
    (lex source).delivered = Token.stream (lex source).tokens := by
  simp [Lexed.delivered, clean]

/-- The tokens that reach the grammar stand in their source, if nothing in it is stray. -/
theorem stand_delivered {source : List Char} (clean : (lex source).stray? = none) :
    ∃ a rest, source = a ++ rest ∧ Stand (lex source).delivered a rest ∧ Lexes rest [] [] := by
  have gathered : Lexes "".toList [] source := .done
  obtain ⟨a, rest, whole, stand, trailing⟩ :=
    stand_lexFrom source.length (Nat.le_refl _) gathered clean
  refine ⟨a, rest, whole, ?_, trailing⟩
  rw [delivered_of_clean clean]
  exact stand.markObservers

/-! ## To the lexer -/

section
variable {c : Char} {cs rest : List Char} {ls : List Lexeme}

theorem Lexes.exists_turn (h : Lexes (c :: cs) ls rest) :
    ∃ text a o ms, c :: cs = text ++ a ∧ ls = o.toList ++ ms ∧ Turn text o (a ++ rest) ∧
      Lexes a ms rest := by
  generalize eq : c :: cs = whole at h
  cases h with
  | done => cases eq
  | turn first others => exact ⟨_, _, _, _, rfl, rfl, first, others⟩

theorem isSpace_not_angle {c : Char} (space : isSpace c = true) : isAngle c = false := by
  have none : ∀ d ∈ [' ', '\t', '\x0c', '\r', '\n'], isAngle d = false :=
    List.all_iff_forall_prop.mp (by decide)
  exact none c (of_decide_eq_true space)

theorem Lexes.of_blank (space : isSpace c = true) (h : Lexes (c :: cs) ls rest) :
    Lexes cs ls rest := by
  obtain ⟨text, a, o, ms, eq, rfl, first, others⟩ := h.exists_turn
  have front (more : List Char) (l : Lexical) (n : Nat) (ne : text ≠ [])
      (found : front? (text ++ more) = some (l, n)) : l = .space := by
    cases text with
    | nil => exact absurd rfl ne
    | cons d ds =>
      cases (List.cons.inj eq).1
      rw [List.cons_append, front?_space space] at found
      exact (Prod.mk.inj (Option.some.inj found)).1.symm
  have ne := first.ne_nil
  cases first with
  | blank => cases eq; exact others
  | comment found => cases front _ _ _ ne found
  | angle first =>
    cases eq
    rw [isSpace_not_angle space] at first
    cases first
  | token found kind =>
    cases front _ _ _ ne found
    cases kind

theorem Lexes.of_angle (angle : isAngle c = true)
    (angles : ∀ d ∈ (cs ++ rest).takeWhile isOperatorChar, isAngle d = true)
    (h : Lexes (c :: cs) ls rest) : ∃ ms, ls = .ofAngle c :: ms ∧ Lexes cs ms rest := by
  obtain ⟨text, a, o, ms, eq, rfl, first, others⟩ := h.exists_turn
  obtain ⟨isOperator, slash⟩ := isAngle_operator angle
  have whole : text ++ (a ++ rest) = c :: (cs ++ rest) := by
    rw [← List.append_assoc, ← eq, List.cons_append]
  have run : front? (c :: (cs ++ rest)) = _ := front?_operator isOperator slash
  rw [← whole] at run
  have ne := first.ne_nil
  cases first with
  | blank space =>
    cases eq
    rw [isSpace_not_angle space] at angle
    cases angle
  | comment found => cases found.symm.trans run
  | angle => cases eq; exact ⟨ms, rfl, others⟩
  | token found kind run' =>
    have same := Prod.mk.inj (Option.some.inj (found.symm.trans run))
    refine absurd ⟨same.1, fun d mem => ?_⟩ run'
    rw [← takeWhile_of_run same.2.symm, whole] at mem
    rcases List.mem_cons.mp ((List.takeWhile_cons_of_pos isOperator) ▸ mem) with rfl | later
    · exact angle
    · exact angles d later

theorem Lexes.of_blanks {a : List Char} (all : ∀ d ∈ a, isSpace d = true)
    (h : Lexes (a ++ cs) ls rest) : Lexes cs ls rest := by
  induction a with
  | nil => exact h
  | cons d ds ih =>
    exact ih (fun e mem => all e (List.mem_cons_of_mem d mem))
      (of_blank (all d List.mem_cons_self) h)

theorem Lexes.of_angles {a : List Char} (all : ∀ d ∈ a, isAngle d = true)
    (stops : (cs ++ rest).takeWhile isOperatorChar = []) (h : Lexes (a ++ cs) ls rest) :
    ∃ ms, ls = a.map Lexeme.ofAngle ++ ms ∧ Lexes cs ms rest := by
  induction a generalizing ls with
  | nil => exact ⟨ls, rfl, h⟩
  | cons d ds ih =>
    have later : ∀ e ∈ ds, isAngle e = true := fun e mem => all e (List.mem_cons_of_mem d mem)
    have angles : ∀ e ∈ (ds ++ cs ++ rest).takeWhile isOperatorChar, isAngle e = true := by
      rw [List.append_assoc,
        List.takeWhile_append_of_pos fun e mem => (isAngle_operator (later e mem)).1, stops,
        List.append_nil]
      exact later
    obtain ⟨ms, rfl, others⟩ := of_angle (all d List.mem_cons_self) angles h
    obtain ⟨ns, rfl, behind⟩ := ih later others
    exact ⟨ns, rfl, behind⟩

/-- What stops a run goes on no run in front of it. -/
theorem takeWhile_append_of_stops {p : Char → Bool} {a : List Char}
    (stops : ∀ d ∈ rest.head?, p d = false) : (a ++ rest).takeWhile p = a.takeWhile p := by
  induction a with
  | nil =>
    cases rest with
    | nil => rfl
    | cons d ds => exact List.takeWhile_cons_of_neg (by simp [stops d rfl])
  | cons d ds ih =>
    rw [List.cons_append, List.takeWhile_cons, List.takeWhile_cons, ih]

/-- A text goes on neither blanks nor operators in front of it. -/
def StopsRuns (rest : List Char) : Prop :=
  ∀ d ∈ rest.head?, isSpace d = false ∧ isOperatorChar d = false

/-- What is lexed in turns is lexed in rounds, if no round goes on behind it. -/
theorem Lexes.exists_round_before (stops : StopsRuns rest) (h : Lexes (c :: cs) ls rest) :
    ∃ l text a ms, c :: cs = text ++ a ∧ front? (text ++ (a ++ rest)) = some (l, text.length) ∧
      ls = l.lexemes text ++ ms ∧ Lexes a ms rest := by
  obtain ⟨text, a, o, ms, eq, rfl, first, others⟩ := h.exists_turn
  cases first with
  | blank space =>
    cases eq
    have split := List.takeWhile_append_dropWhile (p := isSpace) (l := c :: a)
    refine ⟨.space, (c :: a).takeWhile isSpace, (c :: a).dropWhile isSpace, ms, split.symm, ?_,
      rfl, ?_⟩
    · have run := takeWhile_append_of_stops (a := c :: a) fun d mem => (stops d mem).1
      rw [← List.append_assoc, split, ← run]
      exact front?_space space
    · exact of_blanks (fun d mem => List.mem_takeWhile_imp mem) (split.symm ▸ h)
  | comment found => exact ⟨.comment, text, a, ms, eq, found, rfl, others⟩
  | angle angle angles =>
    cases eq
    obtain ⟨isOperator, slash⟩ := isAngle_operator angle
    have run (a : List Char) : (a ++ rest).takeWhile isOperatorChar = a.takeWhile isOperatorChar :=
      takeWhile_append_of_stops fun d mem => (stops d mem).2
    rw [run] at angles
    have all : ∀ d ∈ (c :: a).takeWhile isOperatorChar, isAngle d = true := by
      intro d mem
      rw [List.takeWhile_cons_of_pos isOperator] at mem
      rcases List.mem_cons.mp mem with rfl | later
      · exact angle
      · exact angles d later
    have ends : ((c :: a).dropWhile isOperatorChar ++ rest).takeWhile isOperatorChar = [] := by
      rw [run, List.takeWhile_eq_nil_iff]
      exact fun positive => List.dropWhile_get_zero_not _ _ positive
    have split := List.takeWhile_append_dropWhile (p := isOperatorChar) (l := c :: a)
    obtain ⟨ns, same, behind⟩ := of_angles all ends (split.symm ▸ h)
    refine ⟨.operator, (c :: a).takeWhile isOperatorChar, (c :: a).dropWhile isOperatorChar, ns,
      split.symm, ?_, ?_, behind⟩
    · rw [← List.append_assoc, split, ← run]
      exact front?_operator isOperator slash
    · have kind : Lexical.operator.kind? ((c :: a).takeWhile isOperatorChar) =
          some (.ofOperator (String.ofList ((c :: a).takeWhile isOperatorChar))) := rfl
      rw [same, Lexical.lexemes, kind]
      exact congrArg (· ++ ns) (if_pos ⟨rfl, List.all_eq_true.mpr all⟩).symm
  | token found kind whole =>
    refine ⟨_, text, a, ms, eq, found, ?_, others⟩
    rw [← List.all_eq_true] at whole
    rw [Lexical.lexemes, kind]
    simp only [if_neg whole]
    rfl

/-- What is lexed in turns is lexed in rounds. -/
theorem Lexes.exists_round (h : Lexes (c :: cs) ls []) :
    ∃ l text a ms, c :: cs = text ++ a ∧ front? (text ++ a) = some (l, text.length) ∧
      ls = l.lexemes text ++ ms ∧ Lexes a ms [] := by
  simpa only [List.append_nil] using h.exists_round_before (by simp [StopsRuns])

end

/-- A token that is matched has its lexemes. -/
theorem lexemes_split {l : Lexical} {k : Kind} {layout : String} {text : List Char}
    {p q : Position} (ne : text ≠ []) (kind : l.kind? text = some k) :
    (Token.split ⟨k, layout, String.ofList text, p, q⟩).map Token.lexeme = l.lexemes text := by
  rw [Lexical.lexemes, kind]
  dsimp only
  unfold Token.split
  split
  next run =>
    obtain ⟨-, operator, angles⟩ := (isRun_iff kind).mp run
    rw [if_pos ⟨operator, List.all_eq_true.mpr angles⟩, lexemes_pieces, String.toList_ofList]
  next whole =>
    split
    next angles =>
      obtain ⟨rfl, angles⟩ := angles
      rw [List.all_eq_true] at angles
      match text, ne with
      | c :: d :: cs, _ => exact absurd ((isRun_iff kind).mpr ⟨by simp, rfl, angles⟩) whole
      | [c], _ =>
        have is := (Option.some.inj kind).symm
        rw [ofOperator_angle (angles c List.mem_cons_self)] at is
        simp [Token.lexeme, is, Lexeme.ofAngle, unmarked_ofAngle]
    next => simp [Token.lexeme, Lexical.unmarked_kind? kind]

/-- What is lexed without places is what the lexer makes of a text. -/
theorem Lexes.lexFrom (fuel : Nat) {p : Position} {layout : String} {cs : List Char}
    {ls : List Lexeme} (enough : cs.length ≤ fuel) (h : Lexes cs ls []) :
    (lexFrom fuel p layout cs).stray? = none ∧
      ((lexFrom fuel p layout cs).tokens.flatMap Token.split).map Token.lexeme = ls := by
  induction fuel generalizing p layout cs ls with
  | zero =>
    obtain rfl := List.length_eq_zero_iff.mp (Nat.le_zero.mp enough)
    exact ⟨rfl, h.eq_nil.symm⟩
  | succ fuel ih =>
    cases cs with
    | nil => exact ⟨rfl, h.eq_nil.symm⟩
    | cons c cs =>
      obtain ⟨l, text, a, ms, eq, found, rfl, others⟩ := h.exists_round
      have first : text ≠ [] := List.ne_nil_of_length_pos (front?_bounds found).1
      have shorter : a.length ≤ fuel := by
        have lengths := congrArg List.length eq
        have positive := (front?_bounds found).1
        rw [List.length_append] at lengths
        omega
      rw [eq]
      cases kind : l.kind? text with
      | none =>
        rw [lexFrom_layout found kind, Lexical.lexemes, kind]
        exact ih shorter others
      | some k =>
        have later : (Conformance.lexFrom fuel (p.advance text) "" a).stray? = none ∧ _ :=
          ih shorter others
        obtain ⟨clean, tokens⟩ := later
        rw [lexFrom_token found kind]
        refine ⟨clean, ?_⟩
        rw [List.flatMap_cons, List.map_append, tokens, lexemes_split first kind]

theorem lexemes_markObservers (ts : List Token) :
    (Token.markObservers ts).map Token.lexeme = ts.map Token.lexeme := by
  induction ts with
  | nil => rfl
  | cons t ts ih =>
    have marked : (t.marked ts).lexeme = t.lexeme := Token.lexeme_marked t ts
    rw [Token.markObservers, List.map_cons, List.map_cons, marked, ih]

/-- Nothing is stray in a text that is lexed without places, and its lexemes reach the grammar. -/
theorem lex_of_lexes {source : List Char} {ls : List Lexeme} (h : Lexes source ls []) :
    (lex source).stray? = none ∧ (lex source).delivered.map Token.lexeme = ls := by
  have lexed : (lex source).stray? = none ∧ _ := h.lexFrom source.length (Nat.le_refl _)
  obtain ⟨clean, tokens⟩ := lexed
  refine ⟨clean, ?_⟩
  rw [delivered_of_clean clean, Token.stream, lexemes_markObservers]
  exact tokens

/-! ## Kinds -/

/-- A token of the lexer has the kind of its text. -/
theorem exists_kind? (fuel : Nat) (p : Position) (layout : String) (cs : List Char) :
    ∀ t ∈ (lexFrom fuel p layout cs).tokens, ∃ l : Lexical, l.kind? t.text.toList = some t.kind := by
  induction fuel generalizing p layout cs with
  | zero => simp [lexFrom]
  | succ fuel ih =>
    cases cs with
    | nil => simp [lexFrom]
    | cons c cs =>
      unfold lexFrom
      split
      next => simp
      next l n found =>
        dsimp only
        split
        next => exact ih _ _ _
        next k kind =>
          intro t mem
          rcases List.mem_cons.mp mem with rfl | later
          · exact ⟨l, by simpa using kind⟩
          · exact ih _ _ _ t later

end Conformance
