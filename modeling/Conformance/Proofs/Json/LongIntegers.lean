import Conformance.Json.Reader

/-!
# Integers that are too long

The reader finds an integer too long only in a text with as many digits in a row, which are
more than it converts (`Json.hasDigits_of_parse`).

Every function of the reader leaves an end of its text (`Json.Within`), so what one of them
finds behind another stands in the whole text.
-/

namespace Conformance.Json

/-- A text has some digits in a row. -/
def HasDigits (count : Nat) (cs : List Char) : Prop :=
  ∃ ds : List Char, ds.length = count ∧ (∀ d ∈ ds, d.isDigit = true) ∧ ds <:+: cs

/-- What a function of the reader gives for a text: an end of the text is left, and only digits
in it are too many. -/
def Within {α : Type} (cs : List Char) : Except (Fault × Nat) (α × List Char) → Prop
  | .ok (_, rest) => rest <:+ cs
  | .error (.longInteger count, _) => integerDigitLimit < count ∧ HasDigits count cs
  | .error _ => True

namespace Within

variable {α β : Type} {cs ds : List Char}

theorem ok {a : α} {rest : List Char} (suffix : rest <:+ cs) :
    Within cs (.ok (a, rest) : Except (Fault × Nat) (α × List Char)) := suffix

theorem mono {r : Except (Fault × Nat) (α × List Char)} (h : Within ds r) (suffix : ds <:+ cs) :
    Within cs r := by
  match r with
  | .ok (_, rest) => exact List.IsSuffix.trans h suffix
  | .error (.longInteger count, _) =>
    obtain ⟨more, digits, length, all, inside⟩ := h
    exact ⟨more, digits, length, all, inside.trans suffix.isInfix⟩
  | .error (.value, _) | .error (.name, _) | .error (.colon, _) | .error (.comma, _)
  | .error (.control, _) | .error (.escape, _) | .error (.unicodeEscape, _)
  | .error (.unterminated, _) | .error (.extra, _) | .error (.byteOrderMark, _) => trivial

/-- What is read behind something else is read in the same text. -/
theorem bind {r : Except (Fault × Nat) (α × List Char)}
    {f : α × List Char → Except (Fault × Nat) (β × List Char)} (first : Within cs r)
    (next : ∀ a rest, rest <:+ cs → Within cs (f (a, rest))) : Within cs (r >>= f) := by
  match r with
  | .ok (a, rest) => exact next a rest first
  | .error (fault, left) =>
    cases fault with
    | longInteger count => exact first
    | _ => trivial

end Within

/-! ## Strings -/

theorem skip_suffix (cs : List Char) : skip cs <:+ cs := List.dropWhile_suffix _

theorem within_unit (cs : List Char) : Within cs (unit cs) := by
  unfold unit
  split
  · split
    · exact .ok (List.drop_suffix 4 cs)
    · trivial
  · trivial

theorem within_unicode (cs : List Char) : Within cs (unicode cs) := by
  unfold unicode
  refine .bind (within_unit cs) fun n rest suffix => ?_
  dsimp only
  split
  next more =>
    have shorter : more <:+ cs :=
      ((List.suffix_cons _ _).trans (List.suffix_cons _ _)).trans suffix
    split
    · refine .bind ((within_unit more).mono shorter) fun m behind suffix' => ?_
      dsimp only
      split
      · exact .ok suffix'
      · exact .ok suffix
    · exact .ok suffix
  · exact .ok suffix

theorem Within.followed {r : Except (Fault × Nat) (List LooseChar × List Char)} {cs : List Char}
    (h : Within cs r) (c : LooseChar) :
    Within cs (do
      let (more, behind) ← r
      .ok (c :: more, behind)) :=
  h.bind fun _ _ suffix => .ok suffix

theorem within_stringBody (whole fuel : Nat) (cs : List Char) :
    Within cs (stringBody whole fuel cs) := by
  fun_induction stringBody whole fuel cs with
  | case1 => trivial
  | case2 => trivial
  | case3 fuel cs => exact .ok (List.suffix_cons _ _)
  | case4 => trivial
  | case5 fuel cs ih =>
    have shorter : cs <:+ '\\' :: 'u' :: cs := (List.suffix_cons _ _).trans (List.suffix_cons _ _)
    refine .bind ((within_unicode cs).mono shorter) fun c rest suffix => ?_
    exact ((ih rest).mono suffix).followed c
  | case6 fuel e cs _ c _ ih =>
    exact (ih.mono ((List.suffix_cons _ _).trans (List.suffix_cons _ _))).followed (.char c)
  | case7 => trivial
  | case8 => trivial
  | case9 fuel c cs _ _ _ _ _ ih => exact (ih.mono (List.suffix_cons _ _)).followed (.char c)

theorem within_readString (cs : List Char) : Within cs (readString cs) :=
  .bind (within_stringBody _ _ cs) fun _ _ suffix => .ok suffix

/-! ## Numbers -/

/-- The whole part of a number is digits in front. -/
theorem whole?_eq_some {cs ds : List Char} (whole : whole? cs = some ds) :
    ds <+: cs ∧ ∀ d ∈ ds, d.isDigit = true := by
  unfold whole? at whole
  split at whole
  · cases whole
    exact ⟨⟨_, rfl⟩, List.forall_mem_singleton.mpr (by decide)⟩
  next c cs _ =>
    split at whole
    next digit =>
      cases whole
      refine ⟨List.prefix_cons_inj _ |>.mpr (List.takeWhile_prefix _), ?_⟩
      intro d mem
      rcases List.mem_cons.mp mem with rfl | mem
      · exact digit
      · exact List.all_eq_true.mp List.all_takeWhile d mem
    · cases whole
  · cases whole

theorem within_readNumber (cs : List Char) : Within cs (readNumber cs) := by
  -- The sign settles no more than where the digits begin.
  have unsigned {behind ds : List Char} {sign : Bool} {integer real : Json} (suffix : behind <:+ cs)
      (whole : whole? behind = some ds) (n m : Nat) :
      Within cs (if sign then
        if integerDigitLimit < ds.length then .error (.longInteger ds.length, cs.length)
        else .ok (integer, ((behind.drop ds.length).drop n).drop m)
      else .ok (real, ((behind.drop ds.length).drop n).drop m)) := by
    obtain ⟨front, digits⟩ := whole?_eq_some whole
    have rest : ((behind.drop ds.length).drop n).drop m <:+ cs :=
      (((List.drop_suffix _ _).trans (List.drop_suffix _ _)).trans (List.drop_suffix _ _)).trans
        suffix
    split
    · split
      next long => exact ⟨long, ds, rfl, digits, front.isInfix.trans suffix.isInfix⟩
      · exact .ok rest
    · exact .ok rest
  unfold readNumber
  split
  next sign behind is =>
    have suffix : behind <:+ cs := by
      split at is
      · cases is
        exact List.suffix_cons _ _
      · cases is
        exact List.suffix_refl _
    split
    · trivial
    next ds whole => exact unsigned suffix whole _ _

theorem afterWord?_suffix {word cs rest : List Char} (after : afterWord? word cs = some rest) :
    rest <:+ cs := by
  induction word generalizing cs with
  | nil => exact Option.some.inj after ▸ List.suffix_refl _
  | cons w word ih =>
    cases cs with
    | nil => cases after
    | cons c cs =>
      rw [afterWord?] at after
      split at after
      · exact (ih after).trans (List.suffix_cons _ _)
      · cases after

theorem within_readScalar (cs : List Char) : Within cs (readScalar cs) := by
  unfold readScalar
  split
  next found is =>
    obtain ⟨⟨w, v⟩, -, word⟩ := List.exists_of_findSome?_eq_some is
    obtain ⟨rest, after, rfl⟩ := Option.map_eq_some_iff.mp word
    exact .ok (afterWord?_suffix after)
  · exact within_readNumber cs

/-! ## Values -/

theorem within_readValue (fuel : Nat) :
    (∀ cs, Within cs (readValue fuel cs)) ∧ (∀ cs, Within cs (readItems fuel cs)) ∧
      ∀ before cs, Within cs (readMembers fuel before cs) := by
  induction fuel with
  | zero => exact ⟨fun cs => trivial, fun cs => trivial, fun before cs => trivial⟩
  | succ fuel ih =>
    obtain ⟨value, items, members⟩ := ih
    refine ⟨fun cs => ?_, fun cs => ?_, fun before cs => ?_⟩
    · unfold readValue
      split
      next rest =>
        exact .bind ((within_readString rest).mono (List.suffix_cons _ _))
          fun s rest suffix => .ok suffix
      next rest =>
        have shorter := (skip_suffix rest).trans (List.suffix_cons '[' rest)
        split
        next behind is => exact .ok ((is ▸ List.suffix_cons ']' behind).trans shorter)
        · exact .bind ((items _).mono shorter) fun vs rest suffix => .ok suffix
      next rest =>
        have shorter := (skip_suffix rest).trans (List.suffix_cons '\x7b' rest)
        split
        next behind is => exact .ok ((is ▸ List.suffix_cons '\x7d' behind).trans shorter)
        · exact .bind ((members [] _).mono shorter) fun ms rest suffix => .ok suffix
      · exact within_readScalar cs
    · unfold readItems
      refine .bind (value cs) fun v rest suffix => ?_
      have shorter := (skip_suffix rest).trans suffix
      dsimp only
      split
      next behind is => exact .ok ((is ▸ List.suffix_cons ']' behind).trans shorter)
      next behind is =>
        have further := (skip_suffix behind).trans
          ((is ▸ List.suffix_cons ',' behind).trans shorter)
        exact .bind ((items _).mono further) fun vs rest suffix => .ok suffix
      · trivial
    · unfold readMembers
      split
      next rest =>
        refine .bind ((within_readString rest).mono (List.suffix_cons _ _))
          fun key rest suffix => ?_
        have shorter := (skip_suffix rest).trans suffix
        dsimp only
        split
        next behind is =>
          have further :=
            (skip_suffix behind).trans ((is ▸ List.suffix_cons ':' behind).trans shorter)
          refine .bind ((value _).mono further) fun v rest suffix => ?_
          have shorter := (skip_suffix rest).trans suffix
          dsimp only
          split
          next behind is => exact .ok ((is ▸ List.suffix_cons '\x7d' behind).trans shorter)
          next behind is =>
            exact (members _ _).mono
              ((skip_suffix behind).trans ((is ▸ List.suffix_cons ',' behind).trans shorter))
          · trivial
        · trivial
      · trivial

/-- An integer is too long only in a text with as many digits in a row. -/
theorem hasDigits_of_parse {text : String} {l : Located} {count : Nat}
    (failed : parse text = .error l) (long : l.fault = .longInteger count) :
    integerDigitLimit < count ∧ HasDigits count text.toList := by
  have within := ((within_readValue (2 * text.toList.length + 2)).1 (skip text.toList)).mono
    (skip_suffix _)
  simp only [parse] at failed
  split at failed
  · cases failed
  next fault left is =>
    cases failed
    obtain rfl : fault = .longInteger count := long
    split at is
    · cases is
    · cases value : readValue (2 * text.toList.length + 2) (skip text.toList) with
      | error e =>
        rw [value] at is within
        cases is
        exact within
      | ok found =>
        obtain ⟨v, rest⟩ := found
        rw [value] at is
        simp only [bind, Except.bind] at is
        split at is <;> cases is

end Conformance.Json
