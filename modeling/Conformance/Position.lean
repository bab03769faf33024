/-!
# Positions in a source text

A position counts characters (Unicode scalar values) from the start of a text,
and the line and column that an editor shows for them.  Only the line feed ends
a line, so a carriage return takes a column like any other character.

`advance_append` says that positions add up along a text.
-/

namespace Conformance

/-- A place in a source text. -/
structure Position where
  /-- Characters before it. -/
  offset : Nat
  /-- The line, from 1. -/
  line : Nat
  /-- The column, from 1. -/
  column : Nat
deriving DecidableEq, Repr, Inhabited

namespace Position

/-- The start of a text. -/
def origin : Position := ⟨0, 1, 1⟩

/-- The position behind one character. -/
def step (p : Position) (c : Char) : Position :=
  if c = '\n' then ⟨p.offset + 1, p.line + 1, 1⟩ else ⟨p.offset + 1, p.line, p.column + 1⟩

/-- The position behind a stretch of text. -/
def advance (p : Position) (cs : List Char) : Position := cs.foldl step p

/-- The position some columns further on the same line. -/
def shift (p : Position) (n : Nat) : Position := ⟨p.offset + n, p.line, p.column + n⟩

@[simp] theorem advance_nil (p : Position) : p.advance [] = p := rfl

@[simp] theorem advance_cons (p : Position) (c : Char) (cs : List Char) :
    p.advance (c :: cs) = (p.step c).advance cs := rfl

theorem advance_append (p : Position) (cs ds : List Char) :
    p.advance (cs ++ ds) = (p.advance cs).advance ds := by
  simp [advance, List.foldl_append]

@[simp] theorem offset_step (p : Position) (c : Char) : (p.step c).offset = p.offset + 1 := by
  unfold step; split <;> rfl

/-- The offset counts characters. -/
theorem offset_advance (p : Position) (cs : List Char) :
    (p.advance cs).offset = p.offset + cs.length := by
  induction cs generalizing p with
  | nil => rfl
  | cons c cs ih => simp [ih]; omega

end Position

end Conformance
