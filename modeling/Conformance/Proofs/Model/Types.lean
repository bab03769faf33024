import Conformance.Proofs.Grammar.Exactness
import Conformance.Proofs.Model.Neighbours
import Conformance.Proofs.Model.Recorded
import Conformance.Proofs.Token.Collapsed

/-!
# Types are collapsed

A recorded type is the text of its phrase with each run of blanks made one space.  It means the
type that is written just if no line comment stands between two tokens of the phrase, no blanks
in a back-quoted name are changed, and no directive is among the tokens
(`SourceFile.read_types`).  A type that spans lines can have such a comment in it, and then the
recorded text is that of another type or of none (`SourceFile.read_swallowedText`).

Generated code has recorded types in front of other text.  The tokens of a property's or slot's
type do not join with text that begins with a blank or a mark, so there it is enough that the
recorded type is right by itself.
-/

namespace Conformance

open Grammar

namespace Grammar

/-- The tokens of the types of properties and slots. -/
def annotationPhrases : Gather Property CaseGroup Header (List Token) :=
  { typePhrases with head := fun _ => [] }

theorem takes_annotations :
    Takes annotationPhrases fun ts => ∀ t ∈ ts, isTypeWord t.kind = true where
  property p ts mem := by
    obtain ⟨part, -⟩ := takes_types.property p ts mem
    obtain ⟨b, -, typed⟩ := List.mem_flatMap.mp mem
    refine ⟨part, ?_⟩
    have type {o : Option TypeClause} (typed : ts ∈ (o.map (·.type.tokens)).toList) :
        ∀ t ∈ ts, isTypeWord t.kind = true := by
      cases o with
      | none => cases typed
      | some c =>
        obtain rfl := List.mem_singleton.mp typed
        exact TypeTree.isTypeWord c.type
    cases b <;> exact type typed
  cases c ts mem := by
    obtain ⟨part, -⟩ := takes_types.cases c ts mem
    obtain ⟨e, -, slots⟩ := List.mem_flatMap.mp mem
    obtain ⟨s, -, rfl⟩ := List.mem_map.mp slots
    refine ⟨part, ?_⟩
    cases s <;> exact TypeTree.isTypeWord _
  head h ts mem := by cases mem

theorem Items.annotations_subset (i : Items) :
    i.gather annotationPhrases ⊆ i.gather typePhrases := by
  apply gather_mono
  · exact fun p => List.Subset.refl _
  · exact fun c => List.Subset.refl _
  · exact fun h => List.nil_subset _

end Grammar

/-- The recorded types of a source are its slices at the phrases of types, squashed.  Just if the
tokens of a phrase are collapsible, the text recorded for it is lexed as these.  Closed tokens
are kept in front of any text that begins with a blank or a mark, and those of the types of
properties and slots are closed. -/
theorem SourceFile.read_types {text : String} {filename : Option String} {f : SourceFile}
    (accepted : read text filename = .ok f) :
    ∃ i, readSyntax text.toList = .ok i ∧ f.declarations = i.declarations ∧
      f.types = (i.gather typePhrases).map (fun ts => Text.squash (Token.slice text.toList ts)) ∧
      (∀ ts ∈ i.gather typePhrases, ts ≠ [] ∧ ts <:+: (lex text.toList).delivered ∧
        (IsTextOf (Text.squash (Token.slice text.toList ts)) ts ↔ Collapsible ts) ∧
        (Collapsible ts → (∀ t ∈ ts, t.kind.isClosed = true) →
          ∀ (w : String) (us : List Token), Halts w.toList → IsTextOf w us →
            IsTextOf (Text.squash (Token.slice text.toList ts) ++ w) (ts ++ us))) ∧
      ∀ ts ∈ i.gather annotationPhrases,
        ts ∈ i.gather typePhrases ∧ ∀ t ∈ ts, t.kind.isClosed = true := by
  obtain ⟨clean, i, parsed, same, phrases⟩ := SourceFile.exists_phrases accepted
  refine ⟨i, parsed, same, ?_, fun ts mem => ?_, fun ts mem => ⟨i.annotations_subset mem, ?_⟩⟩
  · rw [types, same, i.declarations_gather agrees_types]
    exact List.map_congr_left fun ts mem => congrArg _ (phrases takes_types ts mem).2.2
  · obtain ⟨part, cut, sliced⟩ := phrases takes_types ts mem
    rw [← sliced]
    exact ⟨cut.ne_nil, part, isTextOf_squash_iff clean part cut.ends,
      fun collapsible closed w us halts behind =>
        isTextOf_squash_append clean part cut.ends closed collapsible halts behind⟩
  · have closed : ∀ k : Kind, isTypeWord k = true → k.isClosed = true := by decide
    exact fun t inType => closed _ ((i.infix_gather takes_annotations ts mem).2 t inType)

/-- A supertype, a type with a comment in it over two lines, a back-quoted name with a mark behind
it, and two supertypes of an extension. -/
def typesText : String :=
  "struct S : A \x7b var a : [ Int /* c */\n ] ; let b : \x60if\x60?\n = 1 \x7d\n" ++
    "extension E : P<Q>, R(\"x\") \x7b \x7d"

theorem SourceFile.read_typesText :
    ∃ f i, read typesText none = .ok f ∧ readSyntax typesText.toList = .ok i ∧
      f.types = ["A", "[ Int /* c */ ]", "\x60if\x60?", "P<Q>", "R(\"x\")"] ∧
      (∀ ts ∈ i.gather typePhrases, Collapsible ts) ∧
      ∀ ts ∈ i.gather annotationPhrases, ∀ us, IsTextOf ".self" us →
        IsTextOf (Text.squash (Token.slice typesText.toList ts) ++ ".self") (ts ++ us) := by
  have seen : (read typesText none).toOption.map types =
      some ["A", "[ Int /* c */ ]", "\x60if\x60?", "P<Q>", "R(\"x\")"] := by
    decide +kernel
  have lexed : (readSyntax typesText.toList).toOption.all (fun i =>
      (i.gather typePhrases).all fun ts =>
        IsTextOf (Text.squash (Token.slice typesText.toList ts)) ts) = true := by
    decide +kernel
  obtain ⟨f, accepted, found⟩ := exists_ok_of _ seen
  obtain ⟨i, parsed, -, -, each, annotations⟩ := SourceFile.read_types accepted
  rw [parsed] at lexed
  have collapsible : ∀ ts ∈ i.gather typePhrases, Collapsible ts := fun ts mem =>
    (each ts mem).2.2.1.mp (of_decide_eq_true (List.all_eq_true.mp lexed ts mem))
  refine ⟨f, i, accepted, parsed, found, collapsible, fun ts mem us behind => ?_⟩
  obtain ⟨recorded, closed⟩ := annotations ts mem
  exact (each ts recorded).2.2.2 (collapsible ts recorded) closed ".self" us
    (by simp [Halts, Pattern.halts, Pattern.isMark, Kind.ofMark?]) behind

/-- A comment up to the end of its line, with the end of a type behind it. -/
def swallowedText : String := "struct S \x7b let a: Array<Int // c\n> \x7d"

/-- On a single line the comment goes on, and the type does not end. -/
theorem SourceFile.read_swallowedText :
    ∃ f i ts, read swallowedText none = .ok f ∧ readSyntax swallowedText.toList = .ok i ∧
      i.gather typePhrases = [ts] ∧ ts.map Token.text = ["Array", "<", "Int", ">"] ∧
      f.types = ["Array<Int // c >"] ∧
      (lex "Array<Int // c >".toList).delivered.map Token.text = ["Array", "<", "Int"] := by
  have seen : (read swallowedText none).toOption.map types = some ["Array<Int // c >"] := by
    decide +kernel
  have phrases : (readSyntax swallowedText.toList).toOption.map (fun i =>
      (i.gather typePhrases).map fun ts => ts.map Token.text) =
        some [["Array", "<", "Int", ">"]] := by
    decide +kernel
  obtain ⟨f, accepted, found⟩ := exists_ok_of _ seen
  cases parsed : readSyntax swallowedText.toList with
  | error e =>
    rw [parsed] at phrases
    cases phrases
  | ok i =>
    rw [parsed] at phrases
    obtain ⟨ts, one, text⟩ := List.map_eq_singleton_iff.mp (Option.some.inj phrases)
    exact ⟨f, i, ts, accepted, rfl, one, text, found, by decide +kernel⟩

end Conformance
