import Conformance.Proofs.Grammar.Derivation

/-!
# What a phrase ends in

Whether a phrase can end in a token of some kind is read off its body: a word ends in
itself, and a sequence as its last part does, or as the part in front of it if the last one
can be empty.  No phrase ends in an opening brace (`Derives.endsOff`).
-/

namespace Conformance.Grammar

/-- Whether a rule has an empty instance. -/
def Rule.isNullable : Rule → Bool
  | start | declHead => true
  | _ => false

namespace Body

/-- Whether a body has an empty instance. -/
def isNullable : Body → Bool
  | word _ => false
  | part r => r.isNullable
  | seq a b => a.isNullable && b.isNullable
  | choice a b => a.isNullable || b.isNullable
  | optional _ | many _ => true

/-- Whether no instance of a body ends in a token of a kind, if none of a rule does. -/
def endsOff (k : Kind) : Body → Bool
  | word ks => !ks.contains k
  | part _ => true
  | seq a b => b.endsOff k && (!b.isNullable || a.endsOff k)
  | choice a b => a.endsOff k && b.endsOff k
  | optional a | many a => a.endsOff k

end Body

/-- Only what is nullable has an empty instance. -/
theorem Derives.isNullable {b : Body} {f : Forest} (h : Derives b f) (none : f.tokens = []) :
    b.isNullable = true := by
  have rules : ∀ r : Rule, r.body.isNullable = true → r.isNullable = true := by
    intro r nullable
    cases r <;> first | rfl | cases nullable
  induction h with
  | word mem => cases none
  | part below ih => exact rules _ (ih (by simpa using none))
  | seq first second ihFirst ihSecond =>
    obtain ⟨left, right⟩ := List.append_eq_nil_iff.mp ((Forest.tokens_append ..).symm.trans none)
    exact Bool.and_eq_true_iff.mpr ⟨ihFirst left, ihSecond right⟩
  | left only ih => exact Bool.or_eq_true_iff.mpr (.inl (ih none))
  | right only ih => exact Bool.or_eq_true_iff.mpr (.inr (ih none))
  | missing => rfl
  | present => rfl
  | none => rfl
  | more => rfl

/-- What the bodies of all rules do not end in, no phrase ends in. -/
theorem Derives.endsOff {k : Kind} (rules : ∀ r : Rule, r.body.endsOff k = true) {b : Body}
    {f : Forest} (h : Derives b f) (off : b.endsOff k = true) {t : Token}
    (last : f.tokens.getLast? = some t) : t.kind ≠ k := by
  have behind {f g : Forest} (last : (f ++ g).tokens.getLast? = some t) :
      g.tokens.getLast? = some t ∨ (g.tokens = [] ∧ f.tokens.getLast? = some t) := by
    rw [Forest.tokens_append] at last
    cases tokens : g.tokens with
    | nil => exact .inr ⟨rfl, by simpa [tokens] using last⟩
    | cons u us => exact .inl (by simpa [tokens, List.getLast?_append] using last)
  induction h with
  | word mem =>
    rintro rfl
    cases last
    simp [Body.endsOff, mem] at off
  | part below ih => exact ih (rules _) (by simpa using last)
  | seq first second ihFirst ihSecond =>
    obtain ⟨offSecond, offFirst⟩ := Bool.and_eq_true_iff.mp off
    rcases behind last with last | ⟨none, last⟩
    · exact ihSecond offSecond last
    · have nullable := second.isNullable none
      exact ihFirst (by simpa [nullable] using offFirst) last
  | left only ih => exact ih (Bool.and_eq_true_iff.mp off).1 last
  | right only ih => exact ih (Bool.and_eq_true_iff.mp off).2 last
  | missing => cases last
  | present only ih => exact ih off last
  | none => cases last
  | more first others ihFirst ihOthers =>
    rcases behind last with last | ⟨-, last⟩
    · exact ihOthers off last
    · exact ihFirst off last

theorem Rule.endsOff_leftBrace (r : Rule) : r.body.endsOff .leftBrace = true := by
  cases r <;> decide

end Conformance.Grammar
