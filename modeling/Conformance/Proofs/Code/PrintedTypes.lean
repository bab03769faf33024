import Conformance.Proofs.Code.Printed
import Conformance.Proofs.Token.Squashed

/-!
# Printed types

A type is printed with single spaces: one on each side of an ampersand, an arrow and an effect,
one behind a comma, a colon, the name of an attribute and a prefix, and one between two labels
(`TypeTree.print`).

The printed text is lexed as the tokens of the type (`TypeTree.prints`).  Where an angle closes
generic arguments, more angles and marks may follow at once, as in `A<B<C>?>`, and the lexer takes
all of them for one operator.  This is split again if angles are all that it is made of, and so
the texts between which a type is put together must not go on with any other operator.  A
`Passage` is a text that is lexed alike in front of all of these, and a `Tail` one that may also
stand behind them.

Blanks in the printed text have something else on either side (`TypeTree.spaced`).
-/

namespace Conformance

open Pattern Text

/-! ## Calm texts -/

/-- The operator at the front of a text, if there is one, is made of angles. -/
def OnlyAngles (w : List Char) : Prop := ∀ c ∈ w.takeWhile isOperatorChar, isAngle c = true

/-- A text goes on no name, and no operator but one of angles. -/
structure Calm (w : List Char) : Prop where
  /-- It does not begin with a part of a name. -/
  name : ∀ c ∈ w.head?, isNamePart c = false
  /-- It begins with no other operator. -/
  angles : OnlyAngles w

section
variable {c : Char} {a w : List Char}

theorem onlyAngles_of_head (none : ∀ c ∈ w.head?, isOperatorChar c = false) : OnlyAngles w := by
  intro c mem
  cases w with
  | nil => cases mem
  | cons d ds =>
    rw [List.takeWhile_cons_of_neg (by simp [none d rfl])] at mem
    cases mem

theorem OnlyAngles.cons (angle : isAngle c = true) (h : OnlyAngles w) : OnlyAngles (c :: w) := by
  intro d mem
  rw [List.takeWhile_cons_of_pos (isAngle_operator angle).1] at mem
  rcases List.mem_cons.mp mem with rfl | later
  · exact angle
  · exact h d later

theorem Halts.calm (halts : Halts w) : Calm w :=
  ⟨fun c head => (not_of_halts (halts c head)).2.1,
    onlyAngles_of_head fun c head => (not_of_halts (halts c head)).1⟩

theorem OnlyAngles.calm_cons (angle : isAngle c = true) (h : OnlyAngles w) : Calm (c :: w) := by
  refine ⟨fun d head => ?_, h.cons angle⟩
  obtain rfl := Option.some.inj head
  have none : ∀ d ∈ signs, isAngle d = true → isNamePart d = false :=
    List.all_iff_forall_prop.mp (by decide)
  exact none _ (mem_signs_of_operator (isAngle_operator angle).1) angle

end

/-! ## Passages -/

/-- A text that is lexed as some lexemes in front of every calm one. -/
def Passage (s : String) (ls : List Lexeme) : Prop := ∀ w, Calm w → Lexes s.toList ls w

/-- A passage that keeps a text calm in front of which it is put. -/
structure Tail (s : String) (ls : List Lexeme) : Prop where
  /-- It is a passage. -/
  passage : Passage s ls
  /-- It is calm in front of every calm text. -/
  calm : ∀ w, Calm w → Calm (s.toList ++ w)

/-- A text that is lexed as some lexemes between all other texts, for it begins and ends with a
blank or a mark. -/
structure Joint (s : String) (ls : List Lexeme) : Prop where
  /-- It is lexed as these. -/
  lexes : ∀ w, Lexes s.toList ls w
  /-- It is calm. -/
  calm : ∀ w, Calm (s.toList ++ w)

section
variable {s t : String} {ls ms : List Lexeme}

theorem Passage.append (first : Passage s ls) (second : Tail t ms) :
    Passage (s ++ t) (ls ++ ms) := by
  intro w calm
  rw [String.toList_append]
  exact (first _ (second.calm w calm)).append (second.passage w calm)

theorem Tail.append (first : Tail s ls) (second : Tail t ms) : Tail (s ++ t) (ls ++ ms) where
  passage := first.passage.append second
  calm w calm := by
    rw [String.toList_append, List.append_assoc]
    exact first.calm _ (second.calm w calm)

theorem tail_empty : Tail "" [] where
  passage _ _ := .done
  calm _ calm := calm

theorem joint_of_fixed (fixed : isInner s = true ∧ leadLexemes s = ls) : Joint s ls where
  lexes := by
    have lead := lead_of_isLead (Bool.and_eq_true_iff.mp fixed.1).1
    rw [fixed.2] at lead
    exact lead.lexes
  calm w := by
    have halts := halts_of_isInner fixed.1 (String.ofList w)
    rw [String.toList_append, String.toList_ofList] at halts
    exact halts.calm

theorem Joint.append (first : Joint s ls) (second : Passage t ms) : Tail (s ++ t) (ls ++ ms) where
  passage w calm := by
    rw [String.toList_append]
    exact (first.lexes _).append (second w calm)
  calm w _ := by
    rw [String.toList_append, List.append_assoc]
    exact first.calm _

theorem Joint.tail (h : Joint s ls) : Tail s ls :=
  ⟨fun w _ => h.lexes w, fun w _ => h.calm w⟩

theorem joint_space : Joint " " [] := joint_of_fixed ⟨rfl, rfl⟩

/-- A passage behind an angle, in front of which there may be more. -/
theorem Passage.behind_angle {c : Char} (h : Passage t ms) (is : s.toList = [c])
    (angle : isAngle c = true) (others : ∀ w, Calm w → OnlyAngles (t.toList ++ w)) :
    Tail (s ++ t) (.ofAngle c :: ms) where
  passage w calm := by
    rw [String.toList_append, is]
    exact .turn (.angle angle (others w calm)) (h w calm)
  calm w calm := by
    rw [String.toList_append, is]
    exact (others w calm).calm_cons angle

theorem tail_of_angle {c : Char} (is : s.toList = [c]) (angle : isAngle c = true) :
    Tail s [.ofAngle c] := by
  have whole := tail_empty.passage.behind_angle is angle fun _ calm => calm.angles
  rwa [String.append_empty] at whole

theorem IsPlainName.passage (plain : IsPlainName s) : Passage s [⟨Kind.ofWord s, s⟩] := by
  intro w calm
  obtain ⟨c, cs, chars, start, parts⟩ := plain.exists_cons
  have opens : opensWord c = true := by simp [opensWord, start]
  have whole : run isNamePart (cs ++ w) = cs.length := by
    have none : w.takeWhile isNamePart = [] := by
      cases w with
      | nil => rfl
      | cons d ds => exact List.takeWhile_cons_of_neg (by simp [calm.name d rfl])
    rw [run, List.takeWhile_append_of_pos parts, none, List.append_nil]
  have found : Lexical.front? (s.toList ++ w) = some (.word, s.toList.length) := by
    rw [chars, List.cons_append, Lexical.front?_word opens, name_of_isNameStart start, plainName,
      if_pos start, whole, Nat.add_comm]
    rfl
  have same : String.ofList s.toList = s := String.ofList_toList
  have turn := Turn.token (k := Kind.ofWord s) found (by simp [Lexical.kind?, same]) (by simp)
  rw [same] at turn
  exact .single turn

end

/-! ## Spaced texts -/

/-- A text begins with a character that is neither blank nor one of an operator. -/
def Begins (s : String) : Prop :=
  ∃ c cs, s.toList = c :: cs ∧ isBlank c = false ∧ isOperatorChar c = false

/-- A character is neither blank nor part of what opens a comment. -/
def isSolid (c : Char) : Bool := !isBlank c && c != '/'

/-- Blanks are single spaces with something else behind each, and no comment begins. -/
structure Spaced (s : String) : Prop where
  /-- Blanks are single spaces. -/
  tidy : Tidy s.toList
  /-- The last character is no blank. -/
  last : ∀ c ∈ s.toList.getLast?, isBlank c = false
  /-- No character begins a comment. -/
  slash : '/' ∉ s.toList

section
variable {s t : String}

theorem Begins.append (h : Begins s) (t : String) : Begins (s ++ t) := by
  obtain ⟨c, cs, chars, is⟩ := h
  refine ⟨c, cs ++ t.toList, ?_, is⟩
  rw [String.toList_append, chars, List.cons_append]

theorem Begins.onlyAngles (h : Begins s) (w : List Char) : OnlyAngles (s.toList ++ w) := by
  obtain ⟨c, cs, chars, -, operator⟩ := h
  refine onlyAngles_of_head fun d head => ?_
  rw [chars] at head
  exact Option.some.inj head ▸ operator

theorem begins_of_char {c : Char} (is : s.toList = [c]) (ink : isBlank c = false)
    (other : isOperatorChar c = false) : Begins s := ⟨c, [], is, ink, other⟩

theorem IsPlainName.begins (plain : IsPlainName s) : Begins s := by
  obtain ⟨c, cs, chars, start, -⟩ := plain.exists_cons
  have part := isNamePart_of_isNameStart start
  refine ⟨c, cs, chars, ink_of_isNamePart part, ?_⟩
  have none : ∀ d ∈ signs, isOperatorChar d = true → isNamePart d = false :=
    List.all_iff_forall_prop.mp (by decide)
  refine Bool.eq_false_iff.mpr fun operator => ?_
  rw [none c (mem_signs_of_operator operator) operator] at part
  cases part

theorem tidy_append {a b : List Char} (seam : Seam a b) (first : Tidy a) (second : Tidy b) :
    Tidy (a ++ b) := by
  have kept := collapse_append seam
  rw [first.collapse_eq, second.collapse_eq] at kept
  exact kept ▸ tidy_collapse _

theorem spaced_of_all (all : s.toList.all isSolid = true) : Spaced s := by
  have solid : ∀ c ∈ s.toList, isBlank c = false ∧ c ≠ '/' := by
    simpa only [isSolid, List.all_eq_true, Bool.and_eq_true, Bool.not_eq_true', bne_iff_ne]
      using all
  exact ⟨collapse_of_ink (fun c mem => (solid c mem).1) ▸ tidy_collapse s.toList,
    fun c mem => (solid c (List.mem_of_getLast? mem)).1, fun mem => (solid _ mem).2 rfl⟩

theorem isSolid_of_isNamePart {c : Char} (is : isNamePart c = true) : isSolid c = true := by
  rw [isSolid, ink_of_isNamePart is, Bool.not_false, Bool.true_and, bne_iff_ne]
  rintro rfl
  exact absurd is (by decide)

theorem IsPlainName.spaced (plain : IsPlainName s) : Spaced s := by
  obtain ⟨c, cs, chars, start, parts⟩ := plain.exists_cons
  have all : ∀ d ∈ c :: cs, isNamePart d = true :=
    List.forall_mem_cons.mpr ⟨isNamePart_of_isNameStart start, parts⟩
  rw [← chars] at all
  exact spaced_of_all (List.all_eq_true.mpr fun d mem => isSolid_of_isNamePart (all d mem))

theorem Spaced.append (first : Spaced s) (second : Spaced t) : Spaced (s ++ t) where
  tidy := by
    rw [String.toList_append]
    exact tidy_append (.inl first.last) first.tidy second.tidy
  last c mem := by
    rw [String.toList_append, List.getLast?_append, Option.mem_def] at mem
    rcases Option.or_eq_some_iff.mp mem with mem | ⟨-, mem⟩
    · exact second.last c mem
    · exact first.last c mem
  slash := by
    rw [String.toList_append, List.mem_append, not_or]
    exact ⟨first.slash, second.slash⟩

/-- A fixed text that may end in a space stands in front of what begins with none. -/
theorem Spaced.behind (h : Spaced t) (begins : Begins t)
    (fixed : collapse s.toList = s.toList ∧ '/' ∉ s.toList) : Spaced (s ++ t) := by
  obtain ⟨c, cs, chars, ink, -⟩ := begins
  refine ⟨?_, fun d mem => h.last d ?_, ?_⟩
  · rw [String.toList_append]
    refine tidy_append (.inr fun d head => ?_) (fixed.1 ▸ tidy_collapse s.toList) h.tidy
    rw [chars] at head
    exact Option.some.inj head ▸ ink
  · rwa [String.toList_append, List.getLast?_append_of_ne_nil _ (by simp [chars])] at mem
  · rw [String.toList_append, List.mem_append, not_or]
    exact ⟨fixed.2, h.slash⟩

/-- Squashing keeps a spaced text. -/
theorem Spaced.squash_eq (h : Spaced s) (begins : Begins s) : squash s = s := by
  obtain ⟨c, cs, chars, ink, -⟩ := begins
  refine (squash_eq_self_iff (fun d head => ?_) h.last).mpr h.tidy
  rw [chars] at head
  exact Option.some.inj head ▸ ink

end

/-! ## Printing -/

/-- The text of the kinds of types that have just one. -/
def Kind.sign : Kind → String
  | throwsKw => "throws"
  | rethrowsKw => "rethrows"
  | asyncKw => "async"
  | atSign => "@"
  | ampersand => "&"
  | arrow => "->"
  | question => "?"
  | bang => "!"
  | dot => "."
  | comma => ","
  | colon => ":"
  | leftAngle => "<"
  | rightAngle => ">"
  | leftParen => "("
  | rightParen => ")"
  | leftSquare => "["
  | rightSquare => "]"
  | _ => ""

/-- How a token of a type is printed: a name as it is, and any other token by its kind. -/
def Token.printed (t : Token) : Lexeme :=
  ⟨t.kind, if t.kind.isIdentifier then t.text else t.kind.sign⟩

/-- A token that is a name is a plain one, and reserved only if it is a reserved word that may
be a label. -/
def Token.IsOrdinary (t : Token) : Prop :=
  t.kind.isIdentifier = true → IsPlainName t.text ∧ Kind.ofWord t.text = t.kind

instance (t : Token) : Decidable t.IsOrdinary := inferInstanceAs (Decidable (_ → _))

namespace Grammar.TypeTree

variable {p : TypePart}

/-- A part of a type with single spaces. -/
def print : {p : TypePart} → TypeTree p → String
  | _, attributed _ name type => "@" ++ name.text ++ " " ++ type.print
  | _, composed unit more => unit.print ++ more.print
  | _, function unit effects _ result =>
    unit.print ++ String.join (effects.map fun e => " " ++ e.val.kind.sign) ++ " -> " ++
      result.print
  | _, noConjunct => ""
  | _, conjunct _ unit more => " & " ++ unit.print ++ more.print
  | _, marked primary marks => primary.print ++ String.join (marks.map fun m => m.val.kind.sign)
  | _, named first path => first.print ++ path.print
  | _, array _ element _ => "[" ++ element.print ++ "]"
  | _, dictionary _ key _ value _ => "[" ++ key.print ++ ": " ++ value.print ++ "]"
  | _, tuple _ elements _ => "(" ++ elements.print ++ ")"
  | _, prefixed word primary => word.text ++ " " ++ primary.print
  | _, pathEnd => ""
  | _, member _ identifier path => "." ++ identifier.print ++ path.print
  | _, plain name => name.text
  | _, generic name _ first others _ => name.text ++ "<" ++ first.print ++ others.print ++ ">"
  | _, noArgument => ""
  | _, argument _ type others => ", " ++ type.print ++ others.print
  | _, noElement => ""
  | _, someElements first others => first.print ++ others.print
  | _, unlabelled type => type.print
  | _, labelled label _ type => label.text ++ ": " ++ type.print
  | _, relabelled outer inner _ type => outer.text ++ " " ++ inner.text ++ ": " ++ type.print
  | _, lastElement => ""
  | _, moreElements _ element others => ", " ++ element.print ++ others.print

/-- All names of a part of a type are ordinary. -/
def IsOrdinary (t : TypeTree p) : Prop := ∀ u ∈ t.tokens, u.IsOrdinary

instance (t : TypeTree p) : Decidable t.IsOrdinary :=
  inferInstanceAs (Decidable (∀ u ∈ t.tokens, u.IsOrdinary))

/-- The lexemes of the printed part. -/
def lexemes (t : TypeTree p) : List Lexeme := t.tokens.map Token.printed

end Grammar.TypeTree

/-! ## Lexing what is printed -/

/-- A sign with its blanks stands between all other texts. -/
theorem Grammar.Word.joint {k : Kind} (t : Tok k) {s : String} (fixed : isInner s = true ∧
    leadLexemes s = [⟨k, k.sign⟩] ∧ k.isIdentifier = false) : Joint s [t.val.printed] := by
  obtain ⟨inner, lexemes, other⟩ := fixed
  rw [Token.printed, t.kind_eq, other]
  exact joint_of_fixed ⟨inner, lexemes⟩

theorem Grammar.Word.printed_angle {k : Kind} (t : Tok k) {c : Char}
    (fixed : .ofAngle c = Lexeme.mk k k.sign ∧ k.isIdentifier = false) :
    t.val.printed = .ofAngle c := by
  rw [Token.printed, t.kind_eq, fixed.2, fixed.1]
  rfl

theorem Grammar.Word.isIdentifier_name (t : Tok .name) : t.val.kind.isIdentifier = true := by
  rw [t.kind_eq]
  rfl

theorem Token.IsOrdinary.passage {u : Token} (ordinary : u.IsOrdinary)
    (is : u.kind.isIdentifier = true) : Passage u.text [u.printed] := by
  obtain ⟨plain, kind⟩ := ordinary is
  rw [Token.printed, if_pos is, ← kind]
  exact plain.passage

/-! ## Pieces -/

section
variable {k l : Kind} {s t a b : String} {us vs : List Token}

/-- One piece behind another. -/
theorem Passage.row (first : Passage a (us.map Token.printed))
    (others : Tail b (vs.map Token.printed)) : Passage (a ++ b) ((us ++ vs).map Token.printed) := by
  rw [List.map_append]
  exact first.append others

/-- Two pieces with a space between them. -/
theorem Passage.spaced (first : Passage a (us.map Token.printed))
    (second : Passage b (vs.map Token.printed)) :
    Passage (a ++ " " ++ b) ((us ++ vs).map Token.printed) := by
  rw [List.map_append, String.append_assoc]
  exact first.append (joint_space.append second)

/-- Two pieces with a sign between them. -/
theorem Passage.paired {sign : Grammar.Tok k} (first : Passage a (us.map Token.printed))
    (middle : Joint s [sign.val.printed]) (second : Passage b (vs.map Token.printed)) :
    Passage (a ++ s ++ b) ((us ++ sign.val :: vs).map Token.printed) := by
  rw [List.map_append, String.append_assoc]
  exact first.append (middle.append second)

/-- A piece behind a sign. -/
theorem Passage.signed {sign : Grammar.Tok k} (front : Joint s [sign.val.printed])
    (first : Passage a (us.map Token.printed)) :
    Passage (s ++ a) ((sign.val :: us).map Token.printed) :=
  (front.append first).passage

/-- A piece between brackets. -/
theorem Passage.enclosed {opening : Grammar.Tok k} {closing : Grammar.Tok l}
    (front : Joint s [opening.val.printed]) (inner : Passage a (us.map Token.printed))
    (back : Joint t [closing.val.printed]) :
    Passage (s ++ a ++ t) ((opening.val :: us ++ [closing.val]).map Token.printed) :=
  (signed front inner).row back.tail

/-- Pieces between angles, behind another. -/
theorem Passage.angled {opening : Grammar.Tok .leftAngle} {closing : Grammar.Tok .rightAngle}
    {n : String} {ts : List Token} (name : Passage n (ts.map Token.printed)) (begins : Begins a)
    (first : Passage a (us.map Token.printed)) (others : Tail b (vs.map Token.printed)) :
    Passage (n ++ "<" ++ a ++ b ++ ">")
      ((ts ++ opening.val :: us ++ vs ++ [closing.val]).map Token.printed) := by
  have back : Tail ">" [.ofAngle '>'] := tail_of_angle rfl rfl
  have inner := (first.append others).append back
  have angled := inner.behind_angle (s := "<") rfl rfl fun w _ =>
    ((begins.append _).append _).onlyAngles w
  rw [← opening.printed_angle ⟨rfl, rfl⟩, ← closing.printed_angle ⟨rfl, rfl⟩] at angled
  simpa only [List.map_cons, List.map_append, List.map_nil, List.cons_append, List.append_assoc,
    String.append_assoc] using name.append angled

/-- The next piece of a list, behind its separator. -/
theorem Tail.next {sign : Grammar.Tok k} (front : Joint s [sign.val.printed])
    (first : Passage a (us.map Token.printed)) (others : Tail b (vs.map Token.printed)) :
    Tail (s ++ a ++ b) ((sign.val :: us ++ vs).map Token.printed) := by
  rw [List.map_append]
  exact (front.append first).append others

end

theorem tail_effects (effects : List (Grammar.Word Kind.isEffect)) :
    Tail (String.join (effects.map fun e => " " ++ e.val.kind.sign))
      ((effects.map Subtype.val).map Token.printed) := by
  have word : ∀ k : Kind, k.isEffect = true → IsPlainName k.sign ∧ Kind.ofWord k.sign = k ∧
      k.isIdentifier = false := by decide
  induction effects with
  | nil => exact tail_empty
  | cons e effects ih =>
    obtain ⟨plain, kind, other⟩ := word _ e.property
    have here := joint_space.append plain.passage
    rw [kind] at here
    rw [List.map_cons, List.map_cons, List.map_cons, String.join_cons, Token.printed, other]
    exact here.append ih

theorem spaced_effects (effects : List (Grammar.Word Kind.isEffect)) :
    Spaced (String.join (effects.map fun e => " " ++ e.val.kind.sign)) := by
  have word : ∀ k : Kind, k.isEffect = true → IsPlainName k.sign := by decide
  induction effects with
  | nil => exact spaced_of_all (by decide)
  | cons e effects ih =>
    have plain := word _ e.property
    rw [List.map_cons, String.join_cons]
    exact (plain.spaced.behind plain.begins ⟨rfl, by decide⟩).append ih

theorem spaced_marks (marks : List (Grammar.Word Kind.isPostfix)) :
    Spaced (String.join (marks.map fun m => m.val.kind.sign)) := by
  have chars : ∀ k : Kind, k.isPostfix = true → k.sign.toList.all isSolid = true := by decide
  induction marks with
  | nil => exact spaced_of_all (by decide)
  | cons m marks ih =>
    rw [List.map_cons, String.join_cons]
    exact (spaced_of_all (chars _ m.property)).append ih

theorem tail_marks (marks : List (Grammar.Word Kind.isPostfix)) :
    Tail (String.join (marks.map fun m => m.val.kind.sign))
      ((marks.map Subtype.val).map Token.printed) := by
  have angle : ∀ k : Kind, k.isPostfix = true → k.isIdentifier = false ∧
      ∃ c, k.sign.toList = [c] ∧ isAngle c = true ∧ Lexeme.ofAngle c = ⟨k, k.sign⟩ := by
    intro k is
    cases k with
    | question => exact ⟨rfl, '?', rfl, rfl, rfl⟩
    | bang => exact ⟨rfl, '!', rfl, rfl, rfl⟩
    | _ => cases is
  induction marks with
  | nil => exact tail_empty
  | cons m marks ih =>
    obtain ⟨other, c, chars, isAngle, lexeme⟩ := angle _ m.property
    have whole := ih.passage.behind_angle chars isAngle fun w calm => (ih.calm w calm).angles
    rw [lexeme] at whole
    rw [List.map_cons, List.map_cons, List.map_cons, String.join_cons, Token.printed, other]
    exact whole

namespace Grammar

/-- Whether a part of a type begins with a name, a bracket or an at sign. -/
def TypePart.isFront : TypePart → Bool
  | whole | unit | primary | identifier | element => true
  | _ => false

namespace TypeTree

variable {p : TypePart}

theorem begins_print (t : TypeTree p) (front : p.isFront = true) (ordinary : t.IsOrdinary) :
    Begins t.print := by
  have name (word : Tok .name) (plain : word.val.IsOrdinary) : Begins word.text :=
    (plain word.isIdentifier_name).1.begins
  induction t with
  | attributed => exact (((begins_of_char (s := "@") rfl rfl rfl).append _).append _).append _
  | composed unit more ihUnit =>
    exact (ihUnit rfl (List.forall_mem_append.mp ordinary).1).append _
  | function unit effects arrow result ihUnit =>
    have parts := (List.forall_mem_append.mp (List.forall_mem_append.mp ordinary).1).1
    exact (((ihUnit rfl parts).append _).append _).append _
  | marked primary marks ihPrimary =>
    exact (ihPrimary rfl (List.forall_mem_append.mp ordinary).1).append _
  | named first path ihFirst =>
    exact (ihFirst rfl (List.forall_mem_append.mp ordinary).1).append _
  | array => exact ((begins_of_char (s := "[") rfl rfl rfl).append _).append _
  | dictionary =>
    exact ((((begins_of_char (s := "[") rfl rfl rfl).append _).append _).append _).append _
  | tuple => exact ((begins_of_char (s := "(") rfl rfl rfl).append _).append _
  | prefixed word => exact ((name word (ordinary _ List.mem_cons_self)).append _).append _
  | plain word => exact name word (ordinary _ List.mem_cons_self)
  | generic word =>
    have first := name word (ordinary _ (by simp [tokens]))
    exact (((first.append _).append _).append _).append _
  | unlabelled type ih => exact ih rfl ordinary
  | labelled label =>
    have plain := (ordinary _ List.mem_cons_self label.property).1
    exact (plain.begins.append _).append _
  | relabelled outer =>
    exact ((((name outer (ordinary _ List.mem_cons_self)).append _).append _).append _).append _
  | _ => cases front

/-- What is printed is a passage, and a tail if it may follow at once. -/
def Prints : {p : TypePart} → TypeTree p → Prop
  | .conjuncts, t | .path, t | .arguments, t | .moreElements, t => Tail t.print t.lexemes
  | _, t => Passage t.print t.lexemes

/-- What is printed is lexed as the tokens of the part. -/
theorem prints (t : TypeTree p) (ordinary : t.IsOrdinary) : t.Prints := by
  have identifier (word : Tok .name) (is : word.val.IsOrdinary) :
      Passage word.text ([word.val].map Token.printed) := is.passage word.isIdentifier_name
  induction t with
  | attributed sign name type ih =>
    simp only [IsOrdinary, tokens, List.forall_mem_cons] at ordinary
    obtain ⟨-, named, ordinary⟩ := ordinary
    have front : Joint "@" [sign.val.printed] := sign.joint ⟨rfl, rfl, rfl⟩
    exact (Passage.signed front (identifier name named)).spaced (ih ordinary)
  | composed unit more ihUnit ihMore =>
    obtain ⟨inUnit, inMore⟩ := List.forall_mem_append.mp ordinary
    exact Passage.row (ihUnit inUnit) (ihMore inMore)
  | function unit effects arrow result ihUnit ihResult =>
    simp only [IsOrdinary, tokens, List.forall_mem_append, List.forall_mem_cons] at ordinary
    obtain ⟨⟨inUnit, -⟩, -, inResult⟩ := ordinary
    have sign : Joint " -> " [arrow.val.printed] := arrow.joint ⟨rfl, rfl, rfl⟩
    exact (Passage.row (ihUnit inUnit) (tail_effects effects)).paired sign (ihResult inResult)
  | noConjunct => exact tail_empty
  | conjunct sign unit more ihUnit ihMore =>
    simp only [IsOrdinary, tokens, List.forall_mem_append, List.forall_mem_cons] at ordinary
    obtain ⟨⟨-, inUnit⟩, inMore⟩ := ordinary
    exact Tail.next (sign.joint ⟨rfl, rfl, rfl⟩) (ihUnit inUnit) (ihMore inMore)
  | marked primary marks ih =>
    exact Passage.row (ih (List.forall_mem_append.mp ordinary).1) (tail_marks marks)
  | named first path ihFirst ihPath =>
    obtain ⟨inFirst, inPath⟩ := List.forall_mem_append.mp ordinary
    exact Passage.row (ihFirst inFirst) (ihPath inPath)
  | array opening element closing ih =>
    simp only [IsOrdinary, tokens, List.forall_mem_append, List.forall_mem_cons] at ordinary
    exact Passage.enclosed (opening.joint ⟨rfl, rfl, rfl⟩) (ih ordinary.1.2)
      (closing.joint ⟨rfl, rfl, rfl⟩)
  | dictionary opening key colon value closing ihKey ihValue =>
    simp only [IsOrdinary, tokens, List.forall_mem_append, List.forall_mem_cons] at ordinary
    obtain ⟨⟨⟨-, inKey⟩, -, inValue⟩, -⟩ := ordinary
    have front : Joint "[" [opening.val.printed] := opening.joint ⟨rfl, rfl, rfl⟩
    have middle : Joint ": " [colon.val.printed] := colon.joint ⟨rfl, rfl, rfl⟩
    have back : Joint "]" [closing.val.printed] := closing.joint ⟨rfl, rfl, rfl⟩
    have pair := (Passage.signed front (ihKey inKey)).paired middle (ihValue inValue)
    exact pair.row back.tail
  | tuple opening elements closing ih =>
    simp only [IsOrdinary, tokens, List.forall_mem_append, List.forall_mem_cons] at ordinary
    exact Passage.enclosed (opening.joint ⟨rfl, rfl, rfl⟩) (ih ordinary.1.2)
      (closing.joint ⟨rfl, rfl, rfl⟩)
  | prefixed word primary ih =>
    obtain ⟨named, ordinary⟩ := List.forall_mem_cons.mp ordinary
    exact Passage.spaced (identifier word named) (ih ordinary)
  | pathEnd => exact tail_empty
  | member dot identifier path ihIdentifier ihPath =>
    simp only [IsOrdinary, tokens, List.forall_mem_append, List.forall_mem_cons] at ordinary
    obtain ⟨⟨-, inIdentifier⟩, inPath⟩ := ordinary
    exact Tail.next (dot.joint ⟨rfl, rfl, rfl⟩) (ihIdentifier inIdentifier) (ihPath inPath)
  | plain name => exact identifier name (ordinary _ List.mem_cons_self)
  | generic name opening first others closing ihFirst ihOthers =>
    have begins := first.begins_print rfl fun u mem => ordinary u (by simp [tokens, mem])
    simp only [IsOrdinary, tokens, List.forall_mem_append, List.forall_mem_cons] at ordinary
    obtain ⟨⟨⟨named, -, inFirst⟩, inOthers⟩, -⟩ := ordinary
    exact Passage.angled (identifier name named) begins (ihFirst inFirst) (ihOthers inOthers)
  | noArgument => exact tail_empty
  | argument comma type others ihType ihOthers =>
    simp only [IsOrdinary, tokens, List.forall_mem_append, List.forall_mem_cons] at ordinary
    obtain ⟨⟨-, inType⟩, inOthers⟩ := ordinary
    exact Tail.next (comma.joint ⟨rfl, rfl, rfl⟩) (ihType inType) (ihOthers inOthers)
  | noElement => exact tail_empty.passage
  | someElements first others ihFirst ihOthers =>
    obtain ⟨inFirst, inOthers⟩ := List.forall_mem_append.mp ordinary
    exact Passage.row (ihFirst inFirst) (ihOthers inOthers)
  | unlabelled type ih => exact ih ordinary
  | labelled label colon type ih =>
    simp only [IsOrdinary, tokens, List.forall_mem_cons] at ordinary
    obtain ⟨named, -, ordinary⟩ := ordinary
    have name : Passage label.text ([label.val].map Token.printed) :=
      named.passage label.property
    have middle : Joint ": " [colon.val.printed] := colon.joint ⟨rfl, rfl, rfl⟩
    exact Passage.paired name middle (ih ordinary)
  | relabelled outer inner colon type ih =>
    simp only [IsOrdinary, tokens, List.forall_mem_cons] at ordinary
    obtain ⟨named, named', -, ordinary⟩ := ordinary
    have name : Passage inner.text ([inner.val].map Token.printed) :=
      named'.passage inner.property
    have middle : Joint ": " [colon.val.printed] := colon.joint ⟨rfl, rfl, rfl⟩
    exact (Passage.spaced (identifier outer named) name).paired middle (ih ordinary)
  | lastElement => exact tail_empty
  | moreElements comma element others ihElement ihOthers =>
    simp only [IsOrdinary, tokens, List.forall_mem_append, List.forall_mem_cons] at ordinary
    obtain ⟨⟨-, inElement⟩, inOthers⟩ := ordinary
    exact Tail.next (comma.joint ⟨rfl, rfl, rfl⟩) (ihElement inElement) (ihOthers inOthers)

/-- In what is printed, blanks are single spaces with something else on either side. -/
theorem spaced_print (t : TypeTree p) (ordinary : t.IsOrdinary) : Spaced t.print := by
  have identifier (word : Tok .name) (is : word.val.IsOrdinary) : Spaced word.text :=
    (is word.isIdentifier_name).1.spaced
  induction t with
  | attributed sign name type ih =>
    simp only [IsOrdinary, tokens, List.forall_mem_cons] at ordinary
    obtain ⟨-, named, ordinary⟩ := ordinary
    have type : Spaced (" " ++ type.print) :=
      (ih ordinary).behind (type.begins_print rfl ordinary) ⟨rfl, by decide⟩
    have front : Spaced "@" := spaced_of_all (by decide)
    rw [print, String.append_assoc]
    exact (front.append (identifier name named)).append type
  | composed unit more ihUnit ihMore =>
    obtain ⟨inUnit, inMore⟩ := List.forall_mem_append.mp ordinary
    exact (ihUnit inUnit).append (ihMore inMore)
  | function unit effects arrow result ihUnit ihResult =>
    simp only [IsOrdinary, tokens, List.forall_mem_append, List.forall_mem_cons] at ordinary
    obtain ⟨⟨inUnit, -⟩, -, inResult⟩ := ordinary
    have result : Spaced (" -> " ++ result.print) :=
      (ihResult inResult).behind (result.begins_print rfl inResult) ⟨rfl, by decide⟩
    rw [print, String.append_assoc]
    exact ((ihUnit inUnit).append (spaced_effects effects)).append result
  | conjunct sign unit more ihUnit ihMore =>
    simp only [IsOrdinary, tokens, List.forall_mem_append, List.forall_mem_cons] at ordinary
    obtain ⟨⟨-, inUnit⟩, inMore⟩ := ordinary
    have unit : Spaced (" & " ++ unit.print) :=
      (ihUnit inUnit).behind (unit.begins_print rfl inUnit) ⟨rfl, by decide⟩
    exact unit.append (ihMore inMore)
  | marked primary marks ih =>
    exact (ih (List.forall_mem_append.mp ordinary).1).append (spaced_marks marks)
  | named first path ihFirst ihPath =>
    obtain ⟨inFirst, inPath⟩ := List.forall_mem_append.mp ordinary
    exact (ihFirst inFirst).append (ihPath inPath)
  | array opening element closing ih =>
    simp only [IsOrdinary, tokens, List.forall_mem_append, List.forall_mem_cons] at ordinary
    have front : Spaced "[" := spaced_of_all (by decide)
    have back : Spaced "]" := spaced_of_all (by decide)
    exact (front.append (ih ordinary.1.2)).append back
  | dictionary opening key colon value closing ihKey ihValue =>
    simp only [IsOrdinary, tokens, List.forall_mem_append, List.forall_mem_cons] at ordinary
    obtain ⟨⟨⟨-, inKey⟩, -, inValue⟩, -⟩ := ordinary
    have front : Spaced "[" := spaced_of_all (by decide)
    have back : Spaced "]" := spaced_of_all (by decide)
    have value : Spaced (": " ++ value.print) :=
      (ihValue inValue).behind (value.begins_print rfl inValue) ⟨rfl, by decide⟩
    have whole := ((front.append (ihKey inKey)).append value).append back
    rwa [← String.append_assoc] at whole
  | tuple opening elements closing ih =>
    simp only [IsOrdinary, tokens, List.forall_mem_append, List.forall_mem_cons] at ordinary
    have front : Spaced "(" := spaced_of_all (by decide)
    have back : Spaced ")" := spaced_of_all (by decide)
    exact (front.append (ih ordinary.1.2)).append back
  | prefixed word primary ih =>
    obtain ⟨named, ordinary⟩ := List.forall_mem_cons.mp ordinary
    have primary : Spaced (" " ++ primary.print) :=
      (ih ordinary).behind (primary.begins_print rfl ordinary) ⟨rfl, by decide⟩
    rw [print, String.append_assoc]
    exact (identifier word named).append primary
  | member dot identifier path ihIdentifier ihPath =>
    simp only [IsOrdinary, tokens, List.forall_mem_append, List.forall_mem_cons] at ordinary
    obtain ⟨⟨-, inIdentifier⟩, inPath⟩ := ordinary
    have front : Spaced "." := spaced_of_all (by decide)
    exact (front.append (ihIdentifier inIdentifier)).append (ihPath inPath)
  | plain name => exact identifier name (ordinary _ List.mem_cons_self)
  | generic name opening first others closing ihFirst ihOthers =>
    simp only [IsOrdinary, tokens, List.forall_mem_append, List.forall_mem_cons] at ordinary
    obtain ⟨⟨⟨named, -, inFirst⟩, inOthers⟩, -⟩ := ordinary
    have front : Spaced "<" := spaced_of_all (by decide)
    have back : Spaced ">" := spaced_of_all (by decide)
    exact ((((identifier name named).append front).append (ihFirst inFirst)).append
      (ihOthers inOthers)).append back
  | argument comma type others ihType ihOthers =>
    simp only [IsOrdinary, tokens, List.forall_mem_append, List.forall_mem_cons] at ordinary
    obtain ⟨⟨-, inType⟩, inOthers⟩ := ordinary
    have type : Spaced (", " ++ type.print) :=
      (ihType inType).behind (type.begins_print rfl inType) ⟨rfl, by decide⟩
    exact type.append (ihOthers inOthers)
  | someElements first others ihFirst ihOthers =>
    obtain ⟨inFirst, inOthers⟩ := List.forall_mem_append.mp ordinary
    exact (ihFirst inFirst).append (ihOthers inOthers)
  | unlabelled type ih => exact ih ordinary
  | labelled label colon type ih =>
    simp only [IsOrdinary, tokens, List.forall_mem_cons] at ordinary
    obtain ⟨named, -, ordinary⟩ := ordinary
    have type : Spaced (": " ++ type.print) :=
      (ih ordinary).behind (type.begins_print rfl ordinary) ⟨rfl, by decide⟩
    rw [print, String.append_assoc]
    exact (named label.property).1.spaced.append type
  | relabelled outer inner colon type ih =>
    simp only [IsOrdinary, tokens, List.forall_mem_cons] at ordinary
    obtain ⟨named, named', -, ordinary⟩ := ordinary
    have plain : IsPlainName inner.text := (named' inner.property).1
    have inner := plain.spaced.behind (s := " ") plain.begins ⟨rfl, by decide⟩
    have type : Spaced (": " ++ type.print) :=
      (ih ordinary).behind (type.begins_print rfl ordinary) ⟨rfl, by decide⟩
    have whole := ((identifier outer named).append inner).append type
    simpa only [print, String.append_assoc] using whole
  | moreElements comma element others ihElement ihOthers =>
    simp only [IsOrdinary, tokens, List.forall_mem_append, List.forall_mem_cons] at ordinary
    obtain ⟨⟨-, inElement⟩, inOthers⟩ := ordinary
    have element : Spaced (", " ++ element.print) :=
      (ihElement inElement).behind (element.begins_print rfl inElement) ⟨rfl, by decide⟩
    exact element.append (ihOthers inOthers)
  | _ => exact spaced_of_all (by decide)

end TypeTree

end Grammar

end Conformance
