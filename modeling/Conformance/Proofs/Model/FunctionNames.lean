import Conformance.Proofs.Model.Order
import Conformance.Proofs.Token.Lookahead

/-!
# Names of functions

A function records the token behind `func` as its name, and that is a token of the stream.  For
a word and for most operators it is the token of the lexer.  A run of angles, question marks and
exclamation marks is split in the stream whatever stands in front of it: the function records
its first character, and the others are taken for atoms of the signature
(`SourceFile.read_functionNames`).

The way back from the stream to the lexer goes by the keyword.  It is neither split nor marked,
so it stands among the tokens of the lexer, and the name is the first of what the token behind it
is split into.
-/

namespace Conformance

namespace Token

/-! ## Back to the lexer -/

section
variable {ts us front back : List Token} {t u : Token}

/-- Marking changes the kind of braces only. -/
theorem eq_of_marked {rest : List Token} (kind : (t.marked rest).kind ≠ .observerBrace) :
    t.marked rest = t := by
  unfold marked at kind ⊢
  split
  next brace =>
    rw [if_pos brace] at kind
    exact absurd rfl kind
  next => rfl

/-- What stands in a marked stream is the marked part of the stream. -/
theorem exists_of_markObservers (whole : markObservers us = front ++ back) :
    ∃ ahead behind, us = ahead ++ behind ∧ back = markObservers behind := by
  induction front generalizing us with
  | nil => exact ⟨[], us, rfl, whole.symm⟩
  | cons v front ih =>
    cases us with
    | nil => cases whole
    | cons u us =>
      obtain ⟨ahead, behind, rfl, eq⟩ := ih (List.cons.inj whole).2
      exact ⟨u :: ahead, behind, rfl, eq⟩

/-- A token that no run is split into is one of the lexer, with the tokens behind it behind it. -/
theorem exists_of_flatMap_split (whole : ts.flatMap split = front ++ u :: back)
    (kind : u.kind ∉ angleKinds.map Prod.snd) :
    ∃ ahead behind, ts = ahead ++ u :: behind ∧ back = behind.flatMap split := by
  induction ts generalizing front with
  | nil => cases front <;> cases whole
  | cons t ts ih =>
    rw [List.flatMap_cons] at whole
    have further (rest : List Token) (eq : ts.flatMap split = rest ++ u :: back) :
        ∃ ahead behind, t :: ts = ahead ++ u :: behind ∧ back = behind.flatMap split := by
      obtain ⟨ahead, behind, rfl, same⟩ := ih eq
      exact ⟨t :: ahead, behind, rfl, same⟩
    rcases List.append_eq_append_iff.mp whole with ⟨rest, -, eq⟩ | ⟨rest, eq, behind⟩
    · exact further rest eq
    · cases rest with
      | nil => exact further [] (by simpa using behind.symm)
      | cons v rest =>
        obtain ⟨rfl, rfl⟩ := List.cons.inj behind
        have mem : u ∈ t.split := eq ▸ by simp
        by_cases run : t.IsAngleRun
        · obtain ⟨i, here⟩ := List.mem_iff_getElem?.mp mem
          obtain ⟨c, -, piece, -⟩ := (splitsInto_split t).piece run i u here
          exact absurd (List.mem_map.mpr ⟨_, piece, rfl⟩) kind
        · have single := (splitsInto_split t).whole run
          rw [single] at eq
          cases front with
          | nil =>
            obtain ⟨rfl, rfl⟩ := List.cons.inj eq
            exact ⟨[], ts, rfl, rfl⟩
          | cons w front => simp at eq

end

/-- The text of the first token that a token is split into: its first character if it is a run of
angles, else all of it. -/
structure LeadsWith (t : Token) (text : String) : Prop where
  /-- A run is cut behind its first character. -/
  first : t.IsAngleRun → text = String.ofList (t.text.toList.take 1)
  /-- Nothing is lost of a token that is no run, and of a run something is. -/
  whole : text = t.text ↔ ¬t.IsAngleRun

theorem leadsWith_split {t u : Token} {us : List Token} (split : t.split = u :: us) :
    t.LeadsWith u.text := by
  have into := splitsInto_split t
  rw [split] at into
  by_cases run : t.IsAngleRun
  · obtain ⟨c, here, -, text, -⟩ := into.piece run 0 u rfl
    have one : t.text.toList.take 1 = [c] := by
      rw [List.take_one, List.head?_eq_getElem?, here]
      rfl
    have cut : u.text = String.ofList (t.text.toList.take 1) := by rw [text, one]; rfl
    refine ⟨fun _ => cut, fun same => ?_, fun other => absurd run other⟩
    have long := run.long
    rw [← same, text, String.length_singleton] at long
    omega
  · obtain ⟨rfl, -⟩ := List.cons.inj (into.whole run)
    exact ⟨fun again => absurd again run, fun _ => run, fun _ => rfl⟩

end Token

open Token

/-- Two neighbours of a stream, neither of them an observer brace and the first no piece of a run,
are a token of the lexer and the first of what the token behind it is split into. -/
theorem exists_of_stream {ts front back : List Token} {t u : Token}
    (whole : stream ts = front ++ t :: u :: back) (plain : t.kind ∉ angleKinds.map Prod.snd)
    (unmarked : t.kind ≠ .observerBrace) (unmarked' : u.kind ≠ .observerBrace) :
    ∃ ahead run behind us, ts = ahead ++ t :: run :: behind ∧ run.split = u :: us := by
  obtain ⟨_, others, splits, marks⟩ := exists_of_markObservers whole
  match others with
  | [] | [_] => cases marks
  | v :: w :: rest =>
    obtain ⟨first, later⟩ := List.cons.inj marks
    obtain ⟨second, -⟩ := List.cons.inj later
    have same : t = v := first.trans (eq_of_marked (first ▸ unmarked))
    have same' : u = w := second.trans (eq_of_marked (second ▸ unmarked'))
    rw [← same, ← same'] at splits
    obtain ⟨ahead, behind, rfl, eq⟩ := exists_of_flatMap_split splits plain
    cases behind with
    | nil => cases eq
    | cons run behind =>
      cases lead : run.split with
      | nil => exact absurd lead (split_ne_nil run)
      | cons x us =>
        rw [List.flatMap_cons, lead] at eq
        obtain ⟨rfl, -⟩ := List.cons.inj eq
        exact ⟨ahead, run, behind, us, rfl, lead⟩

/-! ## Functions -/

namespace Grammar

/-- A function in a source records the token of the lexer behind its keyword, of a run of angles
the first character. -/
def Leaf.Named (source : List Char) : Leaf → Member → Prop
  | function _ _ keyword .., m =>
    ∃ front run back, (lex source).tokens = front ++ keyword.val :: run :: back ∧
      ∃ d name, m = .stateless d ∧ d.keyword = "func" ∧ d.name = some name ∧ run.LeadsWith name
  | _, _ => True

theorem Leaf.named_of_infix {source : List Char} (clean : (lex source).stray? = none) {l : Leaf}
    (part : l.tokens <:+: (lex source).delivered) :
    l.Named source l.member ∧ l.Named source l.declaration.member := by
  cases l with
  | function head classWord keyword name signature body =>
    obtain ⟨before, behind, whole⟩ := part
    have pair : stream (lex source).tokens =
        (before ++ head.tokens ++ optionTokens (fun w => [w.val]) classWord) ++
          keyword.val :: name.val ::
            (Signature.tokens signature ++ optionTokens Group.tokens body ++ behind) := by
      rw [← delivered_of_clean clean, ← whole]
      simp [tokens]
    have named := name.property
    obtain ⟨front, run, back, us, tokens, split⟩ := exists_of_stream pair
      (by rw [keyword.kind_eq]; decide) (by rw [keyword.kind_eq]; decide)
      (fun kind => by rw [kind] at named; exact absurd named (by decide))
    have recorded := leadsWith_split split
    exact ⟨⟨front, run, back, tokens, _, _, rfl, rfl, rfl, recorded⟩,
      ⟨front, run, back, tokens, _, _, rfl, rfl, rfl, recorded⟩⟩
  | _ => exact ⟨trivial, trivial⟩

end Grammar

/-- In a source that is read each function, outside of types and in them, records the token of the
lexer behind its keyword if that is no run of angles, and of such a run the first character. -/
theorem SourceFile.read_functionNames {text : String} {filename : Option String} {f : SourceFile}
    (accepted : read text filename = .ok f) :
    ∃ i : Grammar.Items, i.tokens = (lex text.toList).delivered ∧
      i.Declares (Grammar.Leaf.Named text.toList) (fun _ _ => True)
        (f.declarations.map Declaration.member) := by
  obtain ⟨i, clean, parsed, rfl⟩ := read_eq_ok.mp accepted
  obtain ⟨tokens, -⟩ := Grammar.tokens_of_parse parsed
  have whole : i.tokens <:+: (lex text.toList).delivered := tokens ▸ List.infix_rfl
  exact ⟨i, tokens, Grammar.Items.declares_declarations
    (fun _ part => (Grammar.Leaf.named_of_infix clean part).1)
    (fun _ part => (Grammar.Leaf.named_of_infix clean part).2) (fun _ _ => trivial) whole⟩

/-- The names of the functions among members. -/
def functionNames (ms : List Member) : List (Option String) :=
  ms.flatMap fun
    | .stateless d => if d.keyword = "func" then [d.name] else []
    | _ => []

/-- A structure with two operators, behind a function of a plain name. -/
def operatorText : String :=
  "func max(a: Int) \x7b\x7d struct S \x7b static func <=>(a: S)\n static func >>= (a: S) \x7d"

theorem SourceFile.read_operatorText : ∃ f, read operatorText none = .ok f ∧
    f.nominals.map (fun n => functionNames n.members) = [[some "<=>", some ">>="]] ∧
    ∃ i : Grammar.Items, i.tokens = (lex operatorText.toList).delivered ∧
      i.Declares (Grammar.Leaf.Named operatorText.toList) (fun _ _ => True)
        (f.declarations.map Declaration.member) := by
  have seen : (read operatorText none).toOption.map
      (fun f => f.nominals.map fun n => functionNames n.members) =
        some [[some "<=>", some ">>="]] := by
    decide +kernel
  obtain ⟨f, accepted, names⟩ := exists_ok_of _ seen
  exact ⟨f, accepted, names, read_functionNames accepted⟩

/-- A function whose name is a run of two angles. -/
def shiftText : String := "func << (a: Int) \x7b\x7d"

/-- The lexer takes the name for one operator, and the function records half of it. -/
theorem SourceFile.read_shiftText : ∃ f, read shiftText none = .ok f ∧
    ((lex shiftText.toList).tokens.take 2).map (fun t => (t.kind, t.text)) =
      [(.funcKw, "func"), (.operator, "<<")] ∧
    functionNames (f.declarations.map Declaration.member) = [some "<"] := by
  have seen : (read shiftText none).toOption.map
      (fun f => functionNames (f.declarations.map Declaration.member)) = some [some "<"] := by
    decide +kernel
  obtain ⟨f, accepted, names⟩ := exists_ok_of _ seen
  exact ⟨f, accepted, by decide +kernel, names⟩

end Conformance
