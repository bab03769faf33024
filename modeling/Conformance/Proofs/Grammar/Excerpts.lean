import Conformance.Proofs.Grammar.FirstFault
import Conformance.Proofs.Token.Places

/-!
# Faults are shown where they are

The diagnostic of a rejected source gives one place, and everything in it belongs to that place
(`SourceFile.read_points`).  Its line and column are those of an offset of the source.  What its
message quotes stands there.  Its note shows a window of the line that the place is on, and a
caret below the place.

The places come from the lexer, from tokens, from the angles of a split run and from marked
braces, but a fault has only two kinds: a delivered token begins there, or lexing has ended there
(`readSyntax_stands`).  The excerpt is cut out of the source the same way for all of them
(`exists_window`): it goes from the place to both sides, as far as the line goes and at most as
far as the excerpt reaches.
-/

namespace Conformance

/-! ## Tab stops -/

/-- A text with its tabs as spaces, where `column` is the column since the last tab stop that
counts.  A tab goes to the next multiple of the tab width, and an end of line starts the columns
anew. -/
def expandTabs : (column : Nat) → List Char → List Char
  | _, [] => []
  | column, c :: cs =>
    if c = '\t' then
      List.replicate (tabWidth - column % tabWidth) ' ' ++
        expandTabs (column + (tabWidth - column % tabWidth)) cs
    else if c = '\r' ∨ c = '\n' then c :: expandTabs 0 cs
    else c :: expandTabs (column + 1) cs

/-- A text within a line takes as many columns as it has characters when its tabs are spaces. -/
theorem columns_eq_length {cs : List Char} (inLine : '\n' ∉ cs) (column : Nat) :
    columns column cs = (expandTabs column cs).length := by
  induction cs generalizing column with
  | nil => rfl
  | cons c cs ih =>
    obtain ⟨other, inLine⟩ := List.ne_and_not_mem_of_not_mem_cons inLine
    rw [columns, expandTabs]
    split
    · simp only [List.length_append, List.length_replicate, ih inLine]
    · by_cases carriage : c = '\r'
      · rw [if_pos carriage, if_pos (.inl carriage), List.length_cons, ih inLine, Nat.add_comm]
      · have plain : ¬(c = '\r' ∨ c = '\n') := not_or.mpr ⟨carriage, Ne.symm other⟩
        rw [if_neg carriage, if_neg plain, List.length_cons, ih inLine, Nat.add_comm]

/-- A tab goes to the next multiple of the tab width. -/
theorem length_expandTabs_tab {cs : List Char} (carriage : '\r' ∉ cs) (inLine : '\n' ∉ cs)
    (column : Nat) :
    column + (expandTabs column (cs ++ ['\t'])).length =
      ((column + (expandTabs column cs).length) / tabWidth + 1) * tabWidth := by
  induction cs generalizing column with
  | nil =>
    simp only [List.nil_append, expandTabs, if_true, List.append_nil, List.length_replicate,
      List.length_nil, Nat.add_zero, tabWidth]
    omega
  | cons c cs ih =>
    obtain ⟨other, carriage⟩ := List.ne_and_not_mem_of_not_mem_cons carriage
    obtain ⟨other', inLine⟩ := List.ne_and_not_mem_of_not_mem_cons inLine
    rw [List.cons_append, expandTabs, expandTabs]
    split
    · have further := ih carriage inLine (column + (tabWidth - column % tabWidth))
      rw [List.length_append, List.length_append, List.length_replicate, ← Nat.add_assoc, further,
        Nat.add_assoc column]
    · have plain : ¬(c = '\r' ∨ c = '\n') := not_or.mpr ⟨Ne.symm other, Ne.symm other'⟩
      have further := ih carriage inLine (column + 1)
      rw [Nat.add_assoc, Nat.add_assoc, Nat.add_comm 1, Nat.add_comm 1] at further
      rw [if_neg plain, if_neg plain, List.length_cons, List.length_cons, further]

/-- No tab is left. -/
theorem tab_not_mem_expandTabs (column : Nat) (cs : List Char) :
    '\t' ∉ expandTabs column cs := by
  induction cs generalizing column with
  | nil => exact List.not_mem_nil
  | cons c cs ih =>
    rw [expandTabs]
    split
    · rw [List.mem_append, List.mem_replicate]
      rintro (⟨-, is⟩ | mem)
      · exact absurd is (by decide)
      · exact ih _ mem
    next other =>
      split
      all_goals exact List.not_mem_cons_of_ne_of_not_mem (Ne.symm other) (ih _)

/-! ## Windows -/

/-- A source around a place, in pieces: the place is behind `before`, and `before ++ after` is
the part that is shown of its line. -/
structure Window where
  /-- The lines above. -/
  above : List Char
  /-- The start of the line, which is not shown. -/
  left : List Char
  /-- What is shown in front of the place. -/
  before : List Char
  /-- What is shown from the place on. -/
  after : List Char
  /-- The end of the line, which is not shown. -/
  right : List Char
  /-- The rest, from the line feed on. -/
  below : List Char

namespace Window

/-- The line of the place. -/
def line (w : Window) : List Char := w.left ++ w.before ++ w.after ++ w.right

/-- What a diagnostic shows of a window: the shown piece of the line, and below it a caret behind
as many spaces as the piece in front of the place is wide. -/
def note (w : Window) : String :=
  String.ofList (w.before ++ w.after) ++ "\n" ++
    String.ofList (List.replicate (expandTabs 0 w.before).length ' ') ++ "^"

/-- The window is around an offset of a source. -/
structure IsAt (source : List Char) (offset : Nat) (w : Window) : Prop where
  /-- The pieces are those of the source. -/
  whole : source = w.above ++ w.line ++ w.below
  /-- The place is the offset. -/
  place : (w.above ++ w.left ++ w.before).length = offset
  /-- The line is one line, -/
  inLine : '\n' ∉ w.line
  /-- which begins at the start of the source or behind a line feed, -/
  above : w.above = [] ∨ w.above.getLast? = some '\n'
  /-- and ends at the end of the source or in front of one. -/
  below : w.below = [] ∨ w.below.head? = some '\n'
  /-- As much as the excerpt reaches is shown in front of the place, if the line has so much, -/
  before : w.before.length ≤ excerptReach ∧ (w.left = [] ∨ w.before.length = excerptReach)
  /-- and behind it. -/
  after : w.after.length ≤ excerptReach ∧ (w.right = [] ∨ w.after.length = excerptReach)

end Window

/-- The rest of a line from the start of a text on. -/
def restOfLine (cs : List Char) : List Char := cs.takeWhile (· != '\n')

theorem restOfLine_take (cs : List Char) (n : Nat) :
    restOfLine (cs.take n) = (restOfLine cs).take n := by
  rw [restOfLine, restOfLine]
  induction cs generalizing n with
  | nil => simp
  | cons c cs ih =>
    cases n with
    | zero => rfl
    | succ n =>
      rw [List.take_succ_cons, List.takeWhile_cons, List.takeWhile_cons]
      split
      · rw [List.take_succ_cons, ih]
      · rfl

/-- What an excerpt shows of a text, going from its start as far as the line goes and the excerpt
reaches. -/
def shown (cs : List Char) : List Char := (restOfLine cs).take excerptReach

/-- What is shown is followed by the rest of its line, and that by the end of the line. -/
theorem exists_shown (cs : List Char) :
    ∃ hidden beyond, cs = shown cs ++ hidden ++ beyond ∧ '\n' ∉ shown cs ++ hidden ∧
      (beyond = [] ∨ beyond.head? = some '\n') ∧ (shown cs).length ≤ excerptReach ∧
      (hidden = [] ∨ (shown cs).length = excerptReach) := by
  have line := (restOfLine cs).take_append_drop excerptReach
  refine ⟨(restOfLine cs).drop excerptReach, cs.dropWhile (· != '\n'), ?_, ?_, ?_, ?_, ?_⟩
  · rw [shown, line]
    exact List.takeWhile_append_dropWhile.symm
  · rw [shown, line]
    exact fun mem => absurd (List.mem_takeWhile_imp mem) (by decide)
  · cases rest : cs.dropWhile (· != '\n') with
    | nil => exact .inl rfl
    | cons c beyond =>
      have feed := List.head?_dropWhile_not (· != '\n') cs
      rw [rest] at feed
      exact .inr (congrArg some (by simpa using feed))
  · rw [shown, List.length_take]
    exact Nat.min_le_left ..
  · rw [shown, List.length_take, List.drop_eq_nil_iff]
    omega

theorem excerptAfter_eq (cs : List Char) (offset : Nat) :
    excerptAfter cs offset = shown (cs.drop offset) := by
  rw [shown, ← restOfLine_take]
  rfl

theorem excerptBefore_eq {cs : List Char} {offset : Nat} (le : offset ≤ cs.length) :
    excerptBefore cs offset = (shown (cs.take offset).reverse).reverse := by
  have reach : ((cs.take offset).drop (offset - excerptReach)).reverse =
      (cs.take offset).reverse.take excerptReach := by
    rw [List.take_reverse, List.length_take, Nat.min_eq_left le]
  rw [excerptBefore, reach, shown, ← restOfLine_take]
  rfl

/-- An excerpt is what a window around the place shows. -/
theorem exists_window {cs : List Char} {offset : Nat} (le : offset ≤ cs.length) :
    ∃ w : Window, w.IsAt cs offset ∧ excerpt cs offset = w.note := by
  obtain ⟨left, above, front, inFront, starts, reachFront, cutFront⟩ :=
    exists_shown (cs.take offset).reverse
  obtain ⟨right, below, back, inBack, ends, reachBack, cutBack⟩ := exists_shown (cs.drop offset)
  generalize frontShown : shown (cs.take offset).reverse = before at *
  generalize backShown : shown (cs.drop offset) = after at *
  have front : cs.take offset = above.reverse ++ left.reverse ++ before.reverse := by
    rw [← List.reverse_reverse (cs.take offset), front]
    simp only [List.reverse_append, List.append_assoc]
  have note : excerpt cs offset =
      Window.note ⟨above.reverse, left.reverse, before.reverse, after, right, below⟩ := by
    have inLine : '\n' ∉ before.reverse := fun mem =>
      inFront (List.mem_append_left _ (List.mem_reverse.mp mem))
    rw [excerpt, excerptBefore_eq le, excerptAfter_eq, frontShown, backShown,
      columns_eq_length inLine]
    refine String.toList_injective ?_
    simp [Window.note]
  refine ⟨_, ?_, note⟩
  constructor
  case whole =>
    rw [← List.take_append_drop offset cs, front, back]
    simp only [Window.line, List.append_assoc]
  case place => rw [← front, List.length_take, Nat.min_eq_left le]
  case inLine =>
    simp only [Window.line, List.mem_append, List.mem_reverse, not_or] at inFront inBack ⊢
    exact ⟨⟨⟨inFront.2, inFront.1⟩, inBack.1⟩, inBack.2⟩
  case above => simpa using starts
  case below => exact ends
  case before => simpa using ⟨reachFront, cutFront⟩
  case after => exact ⟨reachBack, cutBack⟩

/-! ## Faults -/

namespace SyntaxFault

/-- The first letter in which the messages of two kinds of faults differ. -/
def letter : SyntaxFault → Char
  | character _ => 'c'
  | token _ => 't'
  | endOfInput => 'e'

theorem letter_of_message (f : SyntaxFault) : f.message.toList[11]? = some f.letter := by
  have within {s : String} (long : 11 < s.toList.length) (t u : String) :
      (s ++ t ++ u).toList[11]? = s.toList[11]? := by
    rw [String.toList_append, String.toList_append, List.append_assoc,
      List.getElem?_append_left long]
  cases f with
  | character c => exact within (by decide) _ _
  | token v => exact within (by decide) _ _
  | endOfInput => rfl

/-- The fault is known from its message. -/
theorem message_injective : Function.Injective message := by
  have quoted {s t u v : String} (same : s ++ t ++ u = s ++ v ++ u) : t = v := by
    have texts := congrArg String.toList same
    simp only [String.toList_append] at texts
    exact String.toList_injective (List.append_cancel_left (List.append_cancel_right texts))
  intro f g same
  have letters : f.letter = g.letter := by
    have here := letter_of_message f
    rw [same, letter_of_message] at here
    exact (Option.some.inj here).symm
  cases f with
  | character c =>
    cases g with
    | character d => exact congrArg character (String.singleton_inj.mp (quoted same))
    | _ => simp [letter] at letters
  | token v =>
    cases g with
    | token w => exact congrArg token (quoted same)
    | _ => simp [letter] at letters
  | endOfInput =>
    cases g with
    | endOfInput => rfl
    | _ => simp [letter] at letters

end SyntaxFault

/-- A fault stands in a source at its place. -/
structure SyntaxFailure.Stands (source : List Char) (f : SyntaxFailure) : Prop where
  /-- The place is in front of a character of the source, -/
  inside : f.position.offset < source.length
  /-- whose line and column it has. -/
  isIn : f.position.IsIn source
  /-- A token stands there, -/
  token : ∀ v, f.fault = .token v → v.toList <+: source.drop f.position.offset
  /-- or a character, -/
  character : ∀ c, f.fault = .character c → source[f.position.offset]? = some c
  /-- or the last token begins there. -/
  endOfInput : f.fault = .endOfInput →
    ∃ t, (lex source).delivered.getLast? = some t ∧ t.start = f.position

/-- A delivered token begins in front of its text. -/
theorem start_of_mem_delivered {source : List Char} {t : Token}
    (mem : t ∈ (lex source).delivered) :
    t.start.offset < source.length ∧ t.start.IsIn source ∧
      t.text.toList <+: source.drop t.start.offset := by
  obtain ⟨q, here⟩ := (tiles_delivered source).exists_isAt mem
  have placed := placed_delivered source t mem
  have some := placed.text_pos
  have stop := here.stop
  have le := placed.stop.le
  refine ⟨by omega, placed.start, ?_⟩
  rw [here.text, between]
  exact List.take_prefix ..

/-- What is wrong with a rejected source stands in it. -/
theorem readSyntax_stands {source : List Char} {f : SyntaxFailure}
    (rejected : readSyntax source = .error f) : f.Stands source := by
  rcases readSyntax_error rejected with ⟨front, t, r, tokens, -, -, rfl⟩ | ⟨-, other⟩
  · have mem : t ∈ (lex source).delivered :=
      tokens ▸ List.mem_append_right front List.mem_cons_self
    obtain ⟨inside, isIn, text⟩ := start_of_mem_delivered mem
    exact ⟨inside, isIn, by rintro v ⟨⟩; exact text, nofun, nofun⟩
  rcases other with ⟨s, stray, rfl⟩ | ⟨-, t, last, rfl⟩
  · obtain ⟨front, rest, whole, place, -⟩ := stray_lexFrom stray
    have offset : s.failure.position.offset = front.length := by
      rw [Stray.failure, place, Position.offset_advance]
      exact Nat.zero_add _
    refine ⟨?_, ?_, nofun, ?_, nofun⟩
    · rw [offset, whole, List.length_append, List.length_cons]
      omega
    · rw [Stray.failure, place, whole]
      exact Position.isIn_advance ..
    · rintro c ⟨⟩
      rw [offset, whole, List.getElem?_append_right (Nat.le_refl _), Nat.sub_self]
      rfl
  · obtain ⟨inside, isIn, -⟩ := start_of_mem_delivered (List.mem_of_getLast? last)
    exact ⟨inside, isIn, nofun, nofun, fun _ => ⟨t, last, rfl⟩⟩

/-! ## Diagnostics -/

/-- A diagnostic points at a place of a source, and says and shows what stands there. -/
structure Diagnostic.PointsAt (source : List Char) (p : Position) (d : Diagnostic) : Prop where
  /-- The place is in front of a character of the source. -/
  inside : p.offset < source.length
  /-- It has the line and the column of its offset, -/
  isIn : p.IsIn source
  /-- and so has the diagnostic. -/
  span : d.span.line = some p.line ∧ d.span.column = some p.column
  /-- There are three messages. -/
  message : (∃ v, d.message = .ofString ("unexpected token '" ++ v ++ "'")) ∨
    (∃ c, d.message = .ofString ("unexpected character '" ++ String.singleton c ++ "'")) ∨
    d.message = .ofString "unexpected end of input"
  /-- The token of the message stands at the place. -/
  token : ∀ v, d.message = .ofString ("unexpected token '" ++ v ++ "'") →
    v.toList <+: source.drop p.offset
  /-- So does the character of the message. -/
  character : ∀ c,
    d.message = .ofString ("unexpected character '" ++ String.singleton c ++ "'") →
      source[p.offset]? = some c
  /-- The end of the input is reported where the last token begins. -/
  endOfInput : d.message = .ofString "unexpected end of input" →
    ∃ t, (lex source).delivered.getLast? = some t ∧ t.start = p
  /-- The note shows a window around the place, with the caret below it. -/
  note : ∃ w : Window, w.IsAt source p.offset ∧ d.notes = [.ofString w.note]

/-- The diagnostic of a rejected source points at a place of the source, where what its message
quotes stands. -/
theorem SourceFile.read_points {text : String} {filename : Option String} {d : Diagnostic}
    (rejected : SourceFile.read text filename = .error d) :
    ∃ p, d.PointsAt text.toList p := by
  obtain ⟨f, failed, rfl⟩ := SourceFile.exists_failure rejected
  have stands := readSyntax_stands failed
  have is {g : SyntaxFault}
      (same : LooseText.ofString f.fault.message = .ofString g.message) : f.fault = g :=
    SyntaxFault.message_injective (LooseText.ofString_injective same)
  obtain ⟨w, here, shows⟩ := exists_window (Nat.le_of_lt stands.inside)
  exact ⟨f.position, {
    inside := stands.inside
    isIn := stands.isIn
    span := ⟨rfl, rfl⟩
    message := by
      show (∃ v, LooseText.ofString f.fault.message = _) ∨
        (∃ c, LooseText.ofString f.fault.message = _) ∨ LooseText.ofString f.fault.message = _
      cases f.fault with
      | token v => exact .inl ⟨v, rfl⟩
      | character c => exact .inr (.inl ⟨c, rfl⟩)
      | endOfInput => exact .inr (.inr rfl)
    token := fun v same => stands.token v (is same)
    character := fun c same => stands.character c (is same)
    endOfInput := fun same => stands.endOfInput (is same)
    note := ⟨w, here, congrArg (fun note => [LooseText.ofString note]) shows⟩ }⟩

/-- A name is missing behind a tab, on the second line. -/
def tabbedText : String := "let a: Int\n\tlet\t)"

theorem SourceFile.read_tabbedText : ∃ d, SourceFile.read tabbedText none = .error d ∧
    d.message = "unexpected token ')'" ∧ d.span.line = some 2 ∧ d.span.column = some 6 ∧
    d.notes = [.ofString "\tlet\t)\n                ^"] ∧ ∃ p, d.PointsAt tabbedText.toList p := by
  have said : (match SourceFile.read tabbedText none with
      | .error d => (d.message, d.span.line, d.span.column, d.notes)
      | .ok _ => (.ofString "", none, none, [])) =
        (.ofString "unexpected token ')'", some 2, some 6,
          [.ofString "\tlet\t)\n                ^"]) := by
    decide +kernel
  cases read : SourceFile.read tabbedText none with
  | error d =>
    rw [read] at said
    simp only [Prod.mk.injEq] at said
    obtain ⟨message, line, column, notes⟩ := said
    exact ⟨d, rfl, message, line, column, notes, SourceFile.read_points read⟩
  | ok s =>
    rw [read] at said
    simp at said

end Conformance
