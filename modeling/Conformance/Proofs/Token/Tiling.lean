import Conformance.Token.Stream

/-!
# Tokens tile their source

Each token of a source has its layout directly behind the token before it, and its
text directly behind its layout.  So the stretch of neighbouring tokens is the part
of the source from the first to the last of them (`Token.stretch_eq_slice`).

The invariant is `Tiles`.  Lexing establishes it, and neither splitting runs nor
marking braces breaks it.
-/

namespace Conformance

/-! ## Parts of a source -/

/-- The characters of a source from one offset to another. -/
def between (source : List Char) (a b : Nat) : List Char := (source.drop a).take (b - a)

section
variable {source : List Char} {a b c : Nat}

@[simp] theorem between_self : between source a a = [] := by
  simp [between]

theorem between_append (ab : a ≤ b) (bc : b ≤ c) :
    between source a b ++ between source b c = between source a c := by
  have length : c - a = (b - a) + (c - b) := by omega
  have behind : source.drop b = (source.drop a).drop (b - a) := by
    rw [List.drop_drop]
    congr 1
    omega
  rw [between, between, between, length, List.take_add, behind]

theorem between_middle (front middle back : List Char) :
    between (front ++ middle ++ back) front.length (front.length + middle.length) = middle := by
  simp [between, List.append_assoc]

end

namespace Token

/-- The part of a source from the first to the last of some tokens. -/
def slice (source : List Char) : List Token → String
  | [] => ""
  | t :: ts => String.ofList (between source t.start.offset (ts.getLastD t).stop.offset)

/-! ## Tiling -/

/-- A token stands in a source with its layout behind an offset. -/
structure IsAt (source : List Char) (q : Nat) (t : Token) : Prop where
  /-- The layout comes first. -/
  start : t.start.offset = q + t.layout.length
  /-- The text follows. -/
  stop : t.stop.offset = t.start.offset + t.text.length
  /-- The layout is that of the source. -/
  layout : t.layout.toList = between source q t.start.offset
  /-- The text is that of the source. -/
  text : t.text.toList = between source t.start.offset t.stop.offset

/-- Tokens stand in a source directly behind each other, the first behind an offset. -/
def Tiles (source : List Char) : (q : Nat) → List Token → Prop
  | _, [] => True
  | q, t :: ts => t.IsAt source q ∧ Tiles source t.stop.offset ts

/-- Where tokens that begin behind an offset end. -/
def reach : (q : Nat) → List Token → Nat
  | q, [] => q
  | _, t :: ts => reach t.stop.offset ts

section
variable {source : List Char} {q : Nat} {t : Token} {ts us : List Token}

theorem reach_getLastD : reach t.stop.offset ts = (ts.getLastD t).stop.offset := by
  induction ts generalizing t with
  | nil => rfl
  | cons u ts ih =>
    rw [List.getLastD_cons]
    exact ih

theorem tiles_append :
    Tiles source q (ts ++ us) ↔ Tiles source q ts ∧ Tiles source (reach q ts) us := by
  induction ts generalizing q with
  | nil => simp [Tiles, reach]
  | cons t ts ih => simp only [List.cons_append, Tiles, reach, ih, and_assoc]

theorem Tiles.le_reach (tiles : Tiles source q ts) : q ≤ reach q ts := by
  induction ts generalizing q with
  | nil => exact Nat.le_refl q
  | cons t ts ih =>
    have further := ih tiles.2
    have start := tiles.1.start
    have stop := tiles.1.stop
    simp only [reach]
    omega

/-- Tokens begin behind the offset they stand behind. -/
theorem Tiles.le_start (tiles : Tiles source q ts) (mem : t ∈ ts) : q ≤ t.start.offset := by
  induction ts generalizing q with
  | nil => cases mem
  | cons u ts ih =>
    have start := tiles.1.start
    have stop := tiles.1.stop
    rcases List.mem_cons.mp mem with rfl | mem
    · omega
    · have further := ih tiles.2 mem
      omega

/-- The tokens in front of others. -/
theorem Tiles.left (tiles : Tiles source q (ts ++ us)) : Tiles source q ts :=
  (tiles_append.mp tiles).1

/-- The tokens behind others. -/
theorem Tiles.right (tiles : Tiles source q (ts ++ us)) : Tiles source (reach q ts) us :=
  (tiles_append.mp tiles).2

/-- Neighbours among the tokens. -/
theorem Tiles.within (tiles : Tiles source q ts) (h : us <:+: ts) :
    ∃ q', Tiles source q' us := by
  obtain ⟨front, back, rfl⟩ := h
  exact ⟨_, tiles.left.right⟩

/-! ## Stretches -/

theorem IsAt.between_eq (at' : t.IsAt source q) :
    t.layout.toList ++ t.text.toList = between source q t.stop.offset := by
  have start := at'.start
  have stop := at'.stop
  rw [at'.layout, at'.text]
  exact between_append (by omega) (by omega)

/-- Tokens with all their layouts are a part of the source. -/
theorem Tiles.join_eq (tiles : Tiles source q ts) :
    (String.join (ts.map fun u => u.layout ++ u.text)).toList =
      between source q (reach q ts) := by
  induction ts generalizing q with
  | nil => simp [reach]
  | cons t ts ih =>
    have start := tiles.1.start
    have stop := tiles.1.stop
    have further := tiles.2.le_reach
    rw [List.map_cons, String.join_cons, String.toList_append, String.toList_append,
      tiles.1.between_eq, ih tiles.2, reach]
    exact between_append (by omega) further

/-- The stretch of neighbouring tokens is the part of the source from the first to the last. -/
theorem stretch_eq_slice (tiles : Tiles source q ts) : stretch ts = slice source ts := by
  cases ts with
  | nil => rfl
  | cons t ts =>
    have stop := tiles.1.stop
    have further := tiles.2.le_reach
    apply String.toList_injective
    rw [stretch, slice, String.toList_append, tiles.2.join_eq, tiles.1.text, ← reach_getLastD,
      String.toList_ofList]
    exact between_append (by omega) further

end

/-! ## The stream -/

section
variable {source : List Char} {q : Nat} {t : Token} {ts : List Token}

/-- A character of a token is the part of the source where it stands. -/
theorem IsAt.between_char (at' : t.IsAt source q) {front back : List Char} {c : Char}
    (text : t.text.toList = front ++ c :: back) :
    between source (t.start.offset + front.length) (t.start.offset + front.length + 1) = [c] := by
  have length : t.text.length = front.length + (back.length + 1) := by
    rw [← String.length_toList, text]
    simp
  have shorter : t.stop.offset - t.start.offset - front.length = back.length + 1 := by
    have stop := at'.stop
    omega
  have behind := congrArg (List.drop front.length) at'.text
  rw [text, between, List.drop_left, List.drop_take, List.drop_drop, shorter] at behind
  have first := congrArg (List.take 1) behind
  rw [List.take_take] at first
  simpa [between, Nat.add_sub_cancel_left] using first.symm

/-- A character of a run stands where the run has it. -/
theorem IsAt.piece (at' : t.IsAt source q) {front back : List Char} {c : Char}
    (text : t.text.toList = front ++ c :: back) :
    IsAt source (if front.length = 0 then q else t.start.offset + front.length)
      { kind := (Kind.ofAngle? c).getD .operator
        layout := if front.length = 0 then t.layout else ""
        text := String.singleton c
        start := t.start.shift front.length
        stop := t.start.shift (front.length + 1) } := by
  have char := at'.between_char text
  split
  next empty =>
    simp only [empty, Nat.add_zero] at char
    exact ⟨by simp [empty, Position.shift, at'.start], by simp [Position.shift, empty],
      by simpa [empty, Position.shift] using at'.layout,
      by simpa [empty, Position.shift] using char.symm⟩
  next more =>
    exact ⟨by simp [Position.shift], by simp [Position.shift]; omega,
      by simp [Position.shift], by simpa [Position.shift, Nat.add_assoc] using char.symm⟩

/-- The characters of a run tile what is left of it. -/
theorem tiles_pieces (at' : t.IsAt source q) {front back : List Char} {c : Char}
    (text : t.text.toList = front ++ c :: back) :
    Tiles source (if front.length = 0 then q else t.start.offset + front.length)
        (t.pieces front.length (c :: back)) ∧
      reach q (t.pieces front.length (c :: back)) = t.stop.offset := by
  have here := at'.piece text
  induction back generalizing front c with
  | nil =>
    refine ⟨⟨here, trivial⟩, ?_⟩
    have length := congrArg List.length text
    simp only [String.length_toList, List.length_append, List.length_singleton] at length
    simp only [pieces, reach, Position.shift]
    rw [at'.stop, length]
  | cons d back ih =>
    have next : t.text.toList = (front ++ [c]) ++ d :: back := by simp [text]
    obtain ⟨tiles, ends⟩ := ih next (at'.piece next)
    rw [List.length_append, List.length_singleton] at tiles ends
    exact ⟨⟨here, by simpa [Position.shift, Nat.add_assoc] using tiles⟩, ends⟩

theorem tiles_split (at' : t.IsAt source q) :
    Tiles source q t.split ∧ reach q t.split = t.stop.offset := by
  unfold split
  split
  next run =>
    cases text : t.text.toList with
    | nil =>
      have empty : t.text.length = 0 := by rw [← String.length_toList, text]; rfl
      simp [isRun, empty] at run
    | cons c cs =>
      have front : t.text.toList = [] ++ c :: cs := text
      exact tiles_pieces at' front
  next => exact ⟨⟨at', trivial⟩, rfl⟩

/-- Splitting runs keeps tokens in their places. -/
theorem Tiles.flatMap_split (tiles : Tiles source q ts) : Tiles source q (ts.flatMap split) := by
  induction ts generalizing q with
  | nil => trivial
  | cons t ts ih =>
    obtain ⟨here, ends⟩ := tiles_split tiles.1
    rw [List.flatMap_cons, tiles_append, ends]
    exact ⟨here, ih tiles.2⟩

/-- Marking braces keeps tokens in their places. -/
theorem Tiles.markObservers (tiles : Tiles source q ts) :
    Tiles source q (markObservers ts) := by
  induction ts generalizing q with
  | nil => trivial
  | cons t ts ih =>
    have marked : (t.marked ts).IsAt source q ∧ (t.marked ts).stop = t.stop := by
      unfold Token.marked
      split
      · exact ⟨⟨tiles.1.start, tiles.1.stop, tiles.1.layout, tiles.1.text⟩, rfl⟩
      · exact ⟨tiles.1, rfl⟩
    refine ⟨marked.1, ?_⟩
    rw [marked.2]
    exact ih tiles.2

end

end Token

/-! ## Lexing -/

open Token

/-- A round of the lexer puts its token behind the layout that has gathered. -/
theorem isAt_lexed {p : Position} {front : List Char} {layout : String}
    (here : p.offset = front.length + layout.length) (k : Kind) (text rest : List Char) :
    IsAt (front ++ layout.toList ++ (text ++ rest)) front.length
      ⟨k, layout, String.ofList text, p, p.advance text⟩ := by
  have before := between_middle front layout.toList (text ++ rest)
  have middle := between_middle (front ++ layout.toList) text rest
  rw [List.length_append, String.length_toList, ← here] at middle
  rw [String.length_toList, ← here] at before
  rw [List.append_assoc] at middle
  constructor
  · exact here
  · rw [p.offset_advance, String.length_ofList]
  · exact before.symm
  · rw [p.offset_advance, String.toList_ofList]
    exact middle.symm

theorem tiles_lexFrom (fuel : Nat) {p : Position} {front cs : List Char} {layout : String}
    (here : p.offset = front.length + layout.length) :
    Tiles (front ++ layout.toList ++ cs) front.length (lexFrom fuel p layout cs).tokens := by
  induction fuel generalizing p front cs layout with
  | zero => trivial
  | succ fuel ih =>
    cases cs with
    | nil => trivial
    | cons c cs =>
      unfold lexFrom
      split
      next => trivial
      next l n found =>
        have whole := List.take_append_drop n (c :: cs)
        dsimp only
        generalize (c :: cs).take n = text at *
        generalize (c :: cs).drop n = rest at *
        have next := p.offset_advance text
        rw [← whole]
        split
        next =>
          have gathered : (p.advance text).offset =
              front.length + (layout ++ String.ofList text).length := by
            rw [next, here, String.length_append, String.length_ofList, Nat.add_assoc]
          have tiles : Tiles (front ++ (layout ++ String.ofList text).toList ++ rest) front.length
              (lexFrom fuel (p.advance text) (layout ++ String.ofList text) rest).tokens :=
            ih gathered
          simpa [List.append_assoc] using tiles
        next k kind =>
          have behind : (front ++ layout.toList ++ text).length = (p.advance text).offset := by
            simp only [next, here, List.length_append, String.length_toList]
          have tiles : Tiles (front ++ layout.toList ++ text ++ "".toList ++ rest)
              (front ++ layout.toList ++ text).length
              (lexFrom fuel (p.advance text) "" rest).tokens :=
            ih behind.symm
          rw [behind] at tiles
          refine ⟨isAt_lexed here k text rest, ?_⟩
          simpa [List.append_assoc] using tiles

/-- The tokens of a source tile it. -/
theorem lex_tiles (source : List Char) : Tiles source 0 (lex source).tokens := by
  have start : Position.origin.offset = ([] : List Char).length + "".length := rfl
  exact tiles_lexFrom source.length start

/-- So do the tokens that reach the grammar. -/
theorem tiles_delivered (source : List Char) : Tiles source 0 (lex source).delivered := by
  have tiles : Tiles source 0 (Token.stream (lex source).tokens) :=
    (lex_tiles source).flatMap_split.markObservers
  obtain ⟨rest, whole⟩ := (lex source).delivered_front
  rw [← whole] at tiles
  exact tiles.left

end Conformance
