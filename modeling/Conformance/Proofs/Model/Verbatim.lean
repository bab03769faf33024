import Conformance.Proofs.Grammar.Exactness
import Conformance.Proofs.Model.Neighbours
import Conformance.Proofs.Model.Recorded

/-!
# Values are kept verbatim

The values and attributes that the declarations of a source record are parts of the source,
each from the first to the last token of its phrase.  By itself each is lexed as the tokens of
its phrase (`SourceFile.read_values`).

So a recorded value can be put into another text without a look at where it is from.
-/

namespace Conformance

open Grammar

/-- The recorded values of a source are its slices at the phrases of values and attributes.  No
slice has blanks at its ends, and the text of each is lexed as the tokens of its phrase. -/
theorem SourceFile.read_values {text : String} {filename : Option String} {f : SourceFile}
    (accepted : read text filename = .ok f) :
    ∃ i, readSyntax text.toList = .ok i ∧ f.declarations = i.declarations ∧
      f.values = (i.gather valuePhrases).map (Token.slice text.toList) ∧
      ∀ ts ∈ i.gather valuePhrases, ts ≠ [] ∧ ts <:+: (lex text.toList).delivered ∧
        Text.trim (Token.slice text.toList ts) = Token.slice text.toList ts ∧
        IsTextOf (Token.slice text.toList ts) ts := by
  obtain ⟨clean, i, parsed, same, phrases⟩ := SourceFile.exists_phrases accepted
  refine ⟨i, parsed, same, ?_, fun ts mem => ?_⟩
  · rw [values, same, i.declarations_gather agrees_values]
    exact List.map_congr_left fun ts mem => (phrases takes_values ts mem).2.2
  · obtain ⟨part, cut, sliced⟩ := phrases takes_values ts mem
    rw [← sliced]
    exact ⟨cut.ne_nil, part, trim_stretch clean part cut.ends, isTextOf_stretch clean part cut.ends⟩

/-- An attribute with a directive in it, a default value with a comment in it, a raw value, and
two values of properties. -/
def verbatimText : String :=
  "@tag(#if x\n) enum E \x7b case a(Int = 1 + /* one */ 1), b = \"x\" \x7d\n" ++
    "struct S \x7b let f = \x7b x in x > 1 \x7d ; let g = y! // h\n \x7d"

theorem SourceFile.read_verbatimText :
    ∃ f, read verbatimText none = .ok f ∧
      f.values = ["@tag(#if x\n)", "1 + /* one */ 1", "\"x\"", "\x7b x in x > 1 \x7d", "y!"] ∧
      ∀ value ∈ f.values, Text.trim value = value ∧ (lex value.toList).stray? = none := by
  have seen : (read verbatimText none).toOption.map values =
      some ["@tag(#if x\n)", "1 + /* one */ 1", "\"x\"", "\x7b x in x > 1 \x7d", "y!"] := by
    decide +kernel
  obtain ⟨f, accepted, found⟩ := exists_ok_of _ seen
  obtain ⟨i, -, -, values, each⟩ := SourceFile.read_values accepted
  refine ⟨f, accepted, found, fun value mem => ?_⟩
  rw [values] at mem
  obtain ⟨ts, phrase, rfl⟩ := List.mem_map.mp mem
  obtain ⟨-, -, trimmed, alone⟩ := each ts phrase
  exact ⟨trimmed, alone.clean⟩

end Conformance
