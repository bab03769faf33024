import Conformance.Proofs.Token.Joining
import Conformance.Proofs.Token.Layout
import Conformance.Proofs.Token.Moving
import Conformance.Proofs.Token.Tiling
import Mathlib.Data.List.Induction

/-!
# Where tokens stand

A token is the part of its source from where it begins to where it ends, and both are given
by offset, line and column.  Between two tokens, and around all of them, there is nothing but
layout (`delivered_in_place`).

Offsets and texts are those of `Tiles`.  Lines and columns have three origins: the lexer
counts them along the source, a run of angles gives its place to each angle, shifted on its
line, and a marked brace keeps its own.  So they are said of a place by itself
(`Position.IsIn`), and each origin is shown to meet it.
-/

namespace Conformance

open Pattern Lexical

/-! ## Lines and columns -/

namespace Position

/-- A place has the line and the column of its offset in a source.  Both count from 1, and only
the line feed ends a line. -/
structure IsIn (source : List Char) (p : Position) : Prop where
  /-- The offset is one of the source. -/
  le : p.offset ≤ source.length
  /-- The line. -/
  line : p.line = 1 + (source.take p.offset).count '\n'
  /-- The column. -/
  column : p.column = 1 + ((source.take p.offset).reverse.takeWhile (· != '\n')).length

theorem column_advance (cs : List Char) :
    (origin.advance cs).column = 1 + (cs.reverse.takeWhile (· != '\n')).length := by
  induction cs using List.reverseRecOn with
  | nil => rfl
  | append_singleton cs c ih =>
    rw [advance_append, advance_cons, advance_nil, step, List.reverse_append,
      List.reverse_singleton, List.singleton_append]
    split
    next feed => simp [feed]
    next other =>
      rw [List.takeWhile_cons_of_pos (p := (· != '\n')) (bne_iff_ne.mpr other), List.length_cons,
        ← Nat.add_assoc, ← ih]

/-- The place behind the front of a source. -/
theorem isIn_advance (front back : List Char) : (origin.advance front).IsIn (front ++ back) := by
  have offset : (origin.advance front).offset = front.length := by
    rw [offset_advance]
    exact Nat.zero_add _
  have before : (front ++ back).take (origin.advance front).offset = front := by
    rw [offset, List.take_left]
  refine ⟨by rw [offset, List.length_append]; omega, ?_, ?_⟩
  · rw [before, line_advance]
    rfl
  · rw [before, column_advance]

/-- A place further on is on the same line if no line feed is between. -/
theorem IsIn.shift {source : List Char} {p : Position} {n : Nat} (h : p.IsIn source)
    (le : p.offset + n ≤ source.length)
    (inLine : ∀ c ∈ between source p.offset (p.offset + n), c ≠ '\n') :
    (p.shift n).IsIn source := by
  have split : source.take (p.offset + n) =
      source.take p.offset ++ between source p.offset (p.offset + n) := by
    rw [List.take_add, between, Nat.add_sub_cancel_left]
  have length : (between source p.offset (p.offset + n)).length = n := by
    rw [between, Nat.add_sub_cancel_left, List.length_take, List.length_drop]
    omega
  refine ⟨le, ?_, ?_⟩
  · have none : (between source p.offset (p.offset + n)).count '\n' = 0 :=
      List.count_eq_zero.mpr fun mem => inLine _ mem rfl
    simp only [Position.shift, split, List.count_append, none, h.line, Nat.add_zero]
  · have all : ∀ c ∈ (between source p.offset (p.offset + n)).reverse, (c != '\n') = true :=
      fun c mem => bne_iff_ne.mpr (inLine c (List.mem_reverse.mp mem))
    simp only [Position.shift, split, List.reverse_append, List.takeWhile_append_of_pos all,
      List.length_append, List.length_reverse, length, h.column]
    omega

end Position

/-! ## Tokens -/

namespace Token

/-- A token with some text, behind layout, and from one place of a source to another. -/
structure IsPlaced (source : List Char) (t : Token) : Prop where
  /-- There is some text. -/
  text_ne : t.text ≠ ""
  /-- What is in front of the text is layout. -/
  layout : IsLayout true t.layout.toList (source.drop t.start.offset)
  /-- It begins at a place of the source. -/
  start : t.start.IsIn source
  /-- It ends at a place of the source. -/
  stop : t.stop.IsIn source

variable {source : List Char} {q : Nat} {t : Token} {ts : List Token}

theorem IsPlaced.text_pos (placed : t.IsPlaced source) : 0 < t.text.length := by
  rw [← String.length_toList]
  exact List.length_pos_iff.mpr fun none => placed.text_ne (String.toList_eq_nil_iff.mp none)

theorem Tiles.exists_isAt (tiles : Tiles source q ts) (mem : t ∈ ts) :
    ∃ q', t.IsAt source q' := by
  obtain ⟨front, back, rfl⟩ := List.append_of_mem mem
  exact ⟨_, tiles.right.1⟩

/-- The characters of a run are placed where the run has them. -/
theorem placed_pieces (at' : t.IsAt source q) (placed : t.IsPlaced source)
    (angles : ∀ c ∈ t.text.toList, isAngle c = true) {front back : List Char}
    (text : t.text.toList = front ++ back) :
    ∀ u ∈ t.pieces front.length back, u.IsPlaced source := by
  have inLine : ∀ c, isAngle c = true → c ≠ '\n' := by
    rintro c angle rfl
    exact absurd angle (by decide)
  have within {n : Nat} (le : n ≤ t.text.length) : (t.start.shift n).IsIn source := by
    have stop := at'.stop
    have reach := placed.stop.le
    refine placed.start.shift (by omega) fun c mem => inLine c (angles c ?_)
    have front : between source t.start.offset (t.start.offset + n) <+: t.text.toList := by
      rw [at'.text]
      exact ⟨_, between_append (Nat.le_add_right t.start.offset n) (by omega)⟩
    exact front.subset mem
  induction back generalizing front with
  | nil => simp [pieces]
  | cons c back ih =>
    have lengths : t.text.length = front.length + (back.length + 1) := by
      rw [← String.length_toList, text, List.length_append, List.length_cons]
    intro u mem
    rcases List.mem_cons.mp mem with rfl | mem
    · refine ⟨by simp, ?_, within (by omega), within (by omega)⟩
      by_cases first : front.length = 0
      · simpa [first, Position.shift] using placed.layout
      · simpa [first] using IsLayout.done
    · have next : t.text.toList = (front ++ [c]) ++ back := by simp [text]
      have further := ih next
      rw [List.length_append, List.length_singleton] at further
      exact further u mem

theorem placed_split (at' : t.IsAt source q) (placed : t.IsPlaced source) :
    ∀ u ∈ t.split, u.IsPlaced source := by
  unfold split
  split
  next run =>
    have angles : ∀ c ∈ t.text.toList, isAngle c = true := by
      simp only [isRun, Bool.and_eq_true, List.all_eq_true] at run
      exact run.2
    have whole : t.text.toList = [] ++ t.text.toList := rfl
    exact placed_pieces at' placed angles whole
  next => simpa using placed

theorem placed_markObservers (placed : ∀ t ∈ ts, t.IsPlaced source) :
    ∀ t ∈ markObservers ts, t.IsPlaced source := by
  intro u mem
  rcases markObservers_cases mem with plain | ⟨t, inside, rfl⟩
  · exact placed u plain
  · have here := placed t inside
    exact ⟨here.text_ne, here.layout, here.start, here.stop⟩

end Token

/-- The tokens of a text are placed behind the text in front of it. -/
theorem placed_lexAt {p : Position} {layout : String} {cs : List Char} (before : List Char)
    (here : p = Position.origin.advance before) (gathered : Lexes layout.toList [] cs) :
    ∀ t ∈ (lexAt p layout cs).tokens, t.IsPlaced (before ++ cs) := by
  induction p, layout, cs using lexing_induction generalizing before with
  | done p layout => simp [lexAt, lexFrom]
  | stray p layout c cs none => simp [lexAt_stray none]
  | blank p layout text rest l found kind ih =>
    have further : Lexes (layout ++ String.ofList text).toList [] rest := by
      rw [String.toList_append, String.toList_ofList]
      exact gathered.append (lexes_layout found kind)
    rw [lexAt_layout found kind, ← List.append_assoc]
    exact ih (before ++ text) (by rw [here, Position.advance_append]) further
  | token p layout text rest l k found kind ih =>
    have next : p.advance text = Position.origin.advance (before ++ text) := by
      rw [here, Position.advance_append]
    have some : text ≠ [] := List.length_pos_iff.mp (front?_bounds found).1
    rw [lexAt_token found kind]
    intro t mem
    rcases List.mem_cons.mp mem with rfl | mem
    · refine ⟨?_, ?_, ?_, ?_⟩
      · simpa using some
      · have offset : p.offset = before.length := by
          rw [here, Position.offset_advance]
          exact Nat.zero_add _
        simpa only [offset, List.drop_left] using isLayout_iff_lexes.mpr gathered
      · rw [here]
        exact Position.isIn_advance before (text ++ rest)
      · simp only [next]
        rw [← List.append_assoc]
        exact Position.isIn_advance (before ++ text) rest
    · rw [← List.append_assoc]
      exact ih (before ++ text) next .done t mem

/-- The tokens that reach the grammar are placed in their source. -/
theorem placed_delivered (source : List Char) :
    ∀ t ∈ (lex source).delivered, t.IsPlaced source := by
  have start : Lexes "".toList [] source := .done
  have lexed : ∀ t ∈ (lex source).tokens, t.IsPlaced source := placed_lexAt [] rfl start
  have stream : ∀ t ∈ Token.stream (lex source).tokens, t.IsPlaced source := by
    refine Token.placed_markObservers fun u mem => ?_
    obtain ⟨t, from', piece⟩ := List.mem_flatMap.mp mem
    obtain ⟨q, at'⟩ := (lex_tiles source).exists_isAt from'
    exact Token.placed_split at' (lexed t from') u piece
  intro t mem
  exact stream t ((lex source).delivered_front.subset mem)

/-- The tokens of a source begin one behind the other. -/
theorem pairwise_delivered (source : List Char) :
    (lex source).delivered.Pairwise fun t u => t.start.offset < u.start.offset := by
  have step {q : Nat} {ts : List Token} (tiles : Token.Tiles source q ts)
      (placed : ∀ t ∈ ts, t.IsPlaced source) :
      ts.Pairwise fun t u => t.start.offset < u.start.offset := by
    induction ts generalizing q with
    | nil => exact .nil
    | cons t ts ih =>
      obtain ⟨here, later⟩ := List.forall_mem_cons.mp placed
      refine .cons (fun u mem => ?_) (ih tiles.2 later)
      have some := here.text_pos
      have stop := tiles.1.stop
      have further := tiles.2.le_start mem
      omega
  exact step (tiles_delivered source) (placed_delivered source)

/-- What is behind the last token of a source without stray characters is layout. -/
theorem layout_behind_delivered {source : List Char} (clean : (lex source).stray? = none) :
    IsLayout true (source.drop (Token.reach 0 (lex source).delivered)) [] := by
  obtain ⟨a, rest, whole, stand, trailing⟩ := stand_delivered clean
  have front : a = source.take (Token.reach 0 (lex source).delivered) := by
    rw [stand.eq_join, (tiles_delivered source).join_eq]
    rfl
  have behind : rest = source.drop (Token.reach 0 (lex source).delivered) := by
    have split := List.take_append_drop (Token.reach 0 (lex source).delivered) source
    rw [← front] at split
    exact List.append_cancel_left (whole.symm.trans split.symm)
  exact behind ▸ isLayout_iff_lexes.mpr trailing

/-- The tokens that reach the grammar stand in their source behind each other, each of them some
part of it, with nothing but layout in front of each of them.  Behind the last is nothing but
layout if no character is stray. -/
theorem delivered_in_place (source : List Char) :
    (∀ front t back, (lex source).delivered = front ++ t :: back →
      (t.text ≠ "" ∧ t.start.offset < t.stop.offset ∧
        t.text.toList = between source t.start.offset t.stop.offset) ∧
      (t.start.IsIn source ∧ t.stop.IsIn source) ∧
      Token.reach 0 front ≤ t.start.offset ∧
      IsLayout true (between source (Token.reach 0 front) t.start.offset)
        (source.drop t.start.offset)) ∧
    ((lex source).stray? = none →
      IsLayout true (source.drop (Token.reach 0 (lex source).delivered)) []) := by
  refine ⟨fun front t back tokens => ?_, layout_behind_delivered⟩
  have tiles := tiles_delivered source
  rw [tokens] at tiles
  have here : t.IsAt source (Token.reach 0 front) := tiles.right.1
  have placed := placed_delivered source t (by simp [tokens])
  have some := placed.text_pos
  have start := here.start
  have stop := here.stop
  refine ⟨⟨placed.text_ne, by omega, here.text⟩, ⟨placed.start, placed.stop⟩, by omega, ?_⟩
  rw [← here.layout]
  exact placed.layout

/-- A property with two angles in a run, and an observer brace behind a comment. -/
def observedText : String :=
  "struct S \x7b\n  var a: Set<Set<Int>> = [] // b\n  \x7b didSet \x7b\x7d \x7d\n\x7d"

/-- Its observer brace. -/
def observerBrace : Token where
  kind := .observerBrace
  layout := " // b\n  "
  text := "\x7b"
  start := ⟨46, 3, 3⟩
  stop := ⟨47, 3, 4⟩

theorem observerBrace_in_place : ∃ front back,
    (lex observedText.toList).delivered = front ++ observerBrace :: back ∧
      observerBrace.start.IsIn observedText.toList ∧
      IsLayout true " // b\n  ".toList (observedText.toList.drop 46) := by
  have behind : (lex observedText.toList).delivered.drop 16 =
      observerBrace :: (lex observedText.toList).delivered.drop 17 := by decide +kernel
  have tokens : (lex observedText.toList).delivered =
      (lex observedText.toList).delivered.take 16 ++
        observerBrace :: (lex observedText.toList).delivered.drop 17 := by
    rw [← behind, List.take_append_drop]
  obtain ⟨-, ⟨start, -⟩, -, layout⟩ := (delivered_in_place observedText.toList).1 _ _ _ tokens
  have gap : between observedText.toList
      (Token.reach 0 ((lex observedText.toList).delivered.take 16)) observerBrace.start.offset =
        " // b\n  ".toList := by
    decide +kernel
  rw [gap] at layout
  exact ⟨_, _, tokens, start, layout⟩

end Conformance
