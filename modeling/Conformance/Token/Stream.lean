import Conformance.Token.Lexer

/-!
# The token stream of the grammar

The grammar reads the tokens of the lexer after two changes.

*Runs are split.*  An operator of two or more angles, question marks and
exclamation marks becomes one token for each character, so `Array<Set<Int>>`
closes two generic argument lists and `Int??` is twice optional.

*Observer braces are marked.*  An opening brace directly in front of `willSet`
or `didSet` opens property observers and not a closure.

A brace is known only when the token behind it is.  So where lexing ends at a
stray character, an opening brace directly in front of it is not delivered.

Neither change touches the text of the stream: `text_split` says so of a single
token, and `text_markObservers` of the whole stream.
-/

namespace Conformance

namespace Token

/-! ## Splitting runs -/

/-- Whether a token is a run to be split. -/
def isRun (t : Token) : Bool :=
  t.kind == .operator && 2 ≤ t.text.length &&
    t.text.toList.all fun c => (Kind.ofAngle? c).isSome

/-- One token for each character of a run, from the character `i` of the token on.  The first
keeps the layout.  A run stays on its line, so only the column moves. -/
def pieces (t : Token) : (i : Nat) → List Char → List Token
  | _, [] => []
  | i, c :: cs =>
    { kind := (Kind.ofAngle? c).getD .operator
      layout := if i = 0 then t.layout else ""
      text := String.singleton c
      start := t.start.shift i
      stop := t.start.shift (i + 1) } :: pieces t (i + 1) cs

/-- A run as its single characters, any other token as it is. -/
def split (t : Token) : List Token :=
  if t.isRun then t.pieces 0 t.text.toList else [t]

theorem text_pieces (t : Token) (i : Nat) (cs : List Char) :
    (t.pieces i cs).flatMap (fun u => u.text.toList) = cs := by
  induction cs generalizing i with
  | nil => rfl
  | cons c cs ih => simp [pieces, ih]

/-- Splitting keeps the text. -/
theorem text_split (t : Token) : t.split.flatMap (fun u => u.text.toList) = t.text.toList := by
  unfold split
  split
  · exact text_pieces t 0 _
  · simp

/-- What a token is split into is the token, or has the kind of a single character. -/
theorem split_cases {t u : Token} (mem : u ∈ t.split) :
    u = t ∨ ∃ c, u.kind = (Kind.ofAngle? c).getD .operator := by
  have pieces (i : Nat) (cs : List Char) (mem : u ∈ t.pieces i cs) :
      ∃ c, u.kind = (Kind.ofAngle? c).getD .operator := by
    induction cs generalizing i with
    | nil => cases mem
    | cons c cs ih =>
      rcases List.mem_cons.mp mem with rfl | later
      · exact ⟨c, rfl⟩
      · exact ih _ later
  unfold split at mem
  split at mem
  · exact .inr (pieces 0 _ mem)
  · exact .inl (List.mem_singleton.mp mem)

/-! ## Marking observer braces -/

/-- Whether a token is a name that opens an observer. -/
def opensObserver (t : Token) : Bool :=
  t.kind == .name && (t.text == "willSet" || t.text == "didSet")

/-- The token in front of the rest of the stream, as an observer brace if it is one. -/
def marked (t : Token) (rest : List Token) : Token :=
  if t.kind == .leftBrace && rest.head?.any opensObserver then { t with kind := .observerBrace }
  else t

/-- Marks every brace that opens observers. -/
def markObservers : List Token → List Token
  | [] => []
  | t :: rest => t.marked rest :: markObservers rest

@[simp] theorem text_marked (t : Token) (rest : List Token) : (t.marked rest).text = t.text := by
  unfold marked; split <;> rfl

@[simp] theorem length_markObservers (ts : List Token) :
    (markObservers ts).length = ts.length := by
  induction ts with
  | nil => rfl
  | cons t ts ih => simp [markObservers, ih]

/-- Marking changes no text. -/
theorem text_markObservers (ts : List Token) :
    (markObservers ts).map Token.text = ts.map Token.text := by
  induction ts with
  | nil => rfl
  | cons t ts ih => simp [markObservers, ih]

/-- A token behind the marking is one in front of it, or an observer brace made of one. -/
theorem markObservers_cases {ts : List Token} {u : Token} (mem : u ∈ markObservers ts) :
    u ∈ ts ∨ ∃ t ∈ ts, u = { t with kind := .observerBrace } := by
  induction ts with
  | nil => cases mem
  | cons t ts ih =>
    rcases List.mem_cons.mp mem with rfl | later
    · unfold marked
      split
      · exact .inr ⟨t, List.mem_cons_self, rfl⟩
      · exact .inl List.mem_cons_self
    · refine (ih later).imp (List.mem_cons_of_mem t) ?_
      rintro ⟨brace, inside, rfl⟩
      exact ⟨brace, List.mem_cons_of_mem t inside, rfl⟩

/-- The stream that the grammar reads, of finished lexing. -/
def stream (ts : List Token) : List Token := markObservers (ts.flatMap split)

end Token

/-! ## Delivery -/

/-- The stream without a brace at its end. -/
def withoutOpenBrace (ts : List Token) : List Token :=
  match ts.getLast? with
  | some t => if t.kind = .leftBrace then ts.dropLast else ts
  | none => ts

/-- What is left are the first tokens of the stream. -/
theorem exists_withoutOpenBrace (ts : List Token) : ∃ rest, ts = withoutOpenBrace ts ++ rest := by
  unfold withoutOpenBrace
  split
  · split
    · obtain ⟨rest, eq⟩ := ts.dropLast_prefix
      exact ⟨rest, eq.symm⟩
    · exact ⟨[], by simp⟩
  · exact ⟨[], by simp⟩

/-- The tokens that reach the grammar. -/
def Lexed.delivered (l : Lexed) : List Token :=
  let ts := Token.stream l.tokens
  if l.stray?.isSome then withoutOpenBrace ts else ts

/-- What reaches the grammar is the front of the stream. -/
theorem Lexed.delivered_front (l : Lexed) : l.delivered <+: Token.stream l.tokens := by
  unfold delivered
  dsimp only
  split
  · obtain ⟨rest, eq⟩ := exists_withoutOpenBrace (Token.stream l.tokens)
    exact ⟨rest, eq.symm⟩
  · exact List.prefix_rfl

end Conformance
