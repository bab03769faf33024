import Conformance.Text.Blank
import Conformance.Text.Hex

/-!
# Loose texts

JSON can write half of a surrogate pair by itself, and such a half is no character.  A *loose
text* may hold halves among its characters.  It is a text like any other until it has to be
encoded: no bytes stand for a half, so a text with one has no encoding (`LooseText.encode`).

Loose texts come in with settings, and go from there into generated code and into messages.
Generated code is joined from strings, and a string has no place for a half.  So the code for
loose settings is found by its *fillings*, the strings with some character in place of each half:
a loose text is known by its fillings (`LooseText.ofFillings_fill`).
-/

namespace Conformance

/-! ## Characters -/

/-- Half of a surrogate pair, by its number among all halves. -/
abbrev Half := Fin 0x800

namespace Half

/-- The UTF-16 unit of a half. -/
def unit (n : Half) : Nat := 0xD800 + n

/-- The half of a UTF-16 unit. -/
def ofUnit (unit : Nat) : Half := ⟨(unit - 0xD800) % 0x800, Nat.mod_lt _ (by decide)⟩

/-- A half as it is shown where it cannot be encoded, which is also its escape in JSON. -/
def escape (n : Half) : List Char := '\\' :: 'u' :: Text.hexDigits 4 n.unit

/-- A character that may stand in place of a half. -/
def oneStand (n : Half) : Char := Char.ofNat (0x10000 + n)

/-- Another character that may stand in place of a half. -/
def otherStand (n : Half) : Char := Char.ofNat (0x10800 + n)

end Half

/-- A character, or half of a surrogate pair. -/
inductive LooseChar where
  | char (c : Char)
  | half (n : Half)
deriving DecidableEq, Repr

namespace LooseChar

/-- The number by which characters and halves are ordered. -/
def code : LooseChar → Nat
  | char c => c.toNat
  | half n => n.unit

/-- Whether nothing is seen of it.  A half counts as seen. -/
def isBlank : LooseChar → Bool
  | char c => Text.isBlank c
  | half _ => false

/-- Whether it is a half. -/
def isHalf : LooseChar → Bool
  | char _ => false
  | half _ => true

/-- The character, or the escape of the half. -/
def shown : LooseChar → List Char
  | char c => [c]
  | half n => n.escape

/-- The character, or one in place of the half. -/
def fill (stand : Half → Char) : LooseChar → Char
  | char c => c
  | half n => stand n

/-- What stands where the two fillings have these characters: the one that both have, or else the
half that the first stands for. -/
def ofStands (c d : Char) : LooseChar :=
  if c = d then char c else half (Fin.ofNat 0x800 (c.toNat - 0x10000))

/-- Halves have no number of a character. -/
theorem code_injective : Function.Injective code := by
  have apart (c : Char) (n : Half) : c.toNat ≠ n.unit := by
    have valid : c.toNat < 0xD800 ∨ 0xDFFF < c.toNat ∧ c.toNat < 0x110000 := c.valid
    have unit : n.unit = 0xD800 + n := rfl
    omega
  intro c d same
  cases c with
  | char c =>
    cases d with
    | char d => exact congrArg char (Char.toNat_inj.mp same)
    | half n => exact absurd same (apart c n)
  | half m =>
    cases d with
    | char d => exact absurd same.symm (apart d m)
    | half n => exact congrArg half (Fin.ext (Nat.add_left_cancel same))

end LooseChar

/-! ## Texts -/

/-- A text in which halves of surrogate pairs may stand. -/
structure LooseText where
  /-- Its characters and halves. -/
  chars : List LooseChar
deriving DecidableEq, Repr, Inhabited

namespace LooseText

/-- A text of characters alone. -/
def ofString (s : String) : LooseText := ⟨s.toList.map .char⟩

instance : Coe String LooseText := ⟨ofString⟩

instance : Append LooseText := ⟨fun s t => ⟨s.chars ++ t.chars⟩⟩

/-- Whether there is nothing in the text. -/
def isEmpty (t : LooseText) : Bool := t.chars.isEmpty

/-- Whether something in the text is not blank. -/
def hasInk (t : LooseText) : Bool := t.chars.any fun c => !c.isBlank

/-- Whether a text comes before another in the order of their characters. -/
def before (s t : LooseText) : Bool :=
  decide (s.chars.map LooseChar.code < t.chars.map LooseChar.code)

/-- The text with the escapes of its halves, as the standard error shows it. -/
def shown (t : LooseText) : String := String.ofList (t.chars.flatMap LooseChar.shown)

/-- The text with a character in place of each half. -/
def fill (stand : Half → Char) (t : LooseText) : String :=
  String.ofList (t.chars.map (LooseChar.fill stand))

/-- The text whose fillings a function gives. -/
def ofFillings (f : (Half → Char) → String) : LooseText :=
  ⟨List.zipWith LooseChar.ofStands (f Half.oneStand).toList (f Half.otherStand).toList⟩

/-! ## Encoding -/

/-- Why a text has no encoding: the first halves in it. -/
structure Fault where
  /-- How many characters are in front of them. -/
  position : Nat
  /-- The first of them. -/
  half : Half
  /-- How many follow it directly. -/
  more : Nat
deriving DecidableEq, Repr

/-- The wording of a fault. -/
def Fault.message (f : Fault) : String :=
  let place :=
    if f.more = 0 then
      "character '" ++ String.ofList f.half.escape ++ "' in position " ++ toString f.position
    else "characters in position " ++ toString f.position ++ "-" ++
      toString (f.position + f.more)
  "'utf-8' codec can't encode " ++ place ++ ": surrogates not allowed"

/-- The first halves, behind some characters. -/
def firstHalves? (position : Nat) : List LooseChar → Option Fault
  | [] => none
  | .char _ :: rest => firstHalves? (position + 1) rest
  | .half n :: rest => some ⟨position, n, (rest.takeWhile LooseChar.isHalf).length⟩

/-- What keeps a text from being encoded. -/
def fault? (t : LooseText) : Option Fault := firstHalves? 0 t.chars

/-- The text as a string, or what keeps it from being encoded.  Without halves any filling is the
text. -/
def encode (t : LooseText) : Except Fault String :=
  match t.fault? with
  | some f => .error f
  | none => .ok (t.fill Half.oneStand)

/-! ## Strings as loose texts -/

theorem ofString_injective : Function.Injective ofString := by
  intro s t same
  have chars : s.toList.map LooseChar.char = t.toList.map LooseChar.char :=
    congrArg LooseText.chars same
  exact String.toList_injective ((List.map_inj_right fun _ _ => LooseChar.char.inj).mp chars)

@[simp] theorem ofString_inj {s t : String} : ofString s = ofString t ↔ s = t :=
  ⟨fun same => ofString_injective same, congrArg ofString⟩

@[simp] theorem ofString_beq (s t : String) : (ofString s == ofString t) = (s == t) := by
  rw [Bool.eq_iff_iff, beq_iff_eq, beq_iff_eq, ofString_inj]

@[simp] theorem fill_ofString (stand : Half → Char) (s : String) : (ofString s).fill stand = s := by
  simp [fill, ofString, Function.comp_def, LooseChar.fill]

@[simp] theorem fill_append (stand : Half → Char) (s t : LooseText) :
    (s ++ t).fill stand = s.fill stand ++ t.fill stand := by
  change String.ofList ((s.chars ++ t.chars).map _) = _
  rw [List.map_append, String.ofList_append]
  rfl

theorem firstHalves?_eq_none {cs : List LooseChar} {position : Nat}
    (none : firstHalves? position cs = none) :
    ∃ ds : List Char, cs = ds.map LooseChar.char := by
  induction cs generalizing position with
  | nil => exact ⟨[], rfl⟩
  | cons c cs ih =>
    cases c with
    | half n => cases none
    | char c =>
      obtain ⟨ds, rfl⟩ := ih none
      exact ⟨c :: ds, rfl⟩

@[simp] theorem fault?_ofString (s : String) : (ofString s).fault? = none := by
  have chars (cs : List Char) (position : Nat) :
      firstHalves? position (cs.map .char) = none := by
    induction cs generalizing position with
    | nil => rfl
    | cons c cs ih => exact ih _
  exact chars _ 0

/-- Only strings have no fault. -/
theorem eq_ofString_of_fault? {t : LooseText} (none : t.fault? = none) :
    ∃ s, t = ofString s := by
  obtain ⟨ds, is⟩ := firstHalves?_eq_none none
  refine ⟨String.ofList ds, ?_⟩
  rw [ofString, String.toList_ofList, ← is]

/-- A text without fault is the same with anything in place of halves. -/
theorem fill_eq_of_fault? {t : LooseText} (none : t.fault? = none) (stand stand' : Half → Char) :
    t.fill stand = t.fill stand' := by
  obtain ⟨s, rfl⟩ := eq_ofString_of_fault? none
  rw [fill_ofString, fill_ofString]

/-- A text is encoded as a string just if it is the string. -/
theorem encode_eq_ok_iff {t : LooseText} {s : String} : t.encode = .ok s ↔ t = ofString s := by
  constructor
  · intro encoded
    rw [encode] at encoded
    cases fault : t.fault? with
    | some f => simp [fault] at encoded
    | none =>
      obtain ⟨u, rfl⟩ := eq_ofString_of_fault? fault
      simp only [fault, fill_ofString, Except.ok.injEq] at encoded
      rw [encoded]
  · rintro rfl
    rw [encode, fault?_ofString, fill_ofString]

/-! ## Texts by their fillings -/

theorem toNat_stand {n : Nat} (n_lt : n < 0x800) (k : Nat) (low : 0x10000 ≤ k)
    (high : k ≤ 0x10800) : (Char.ofNat (k + n)).toNat = k + n := by
  have valid : (k + n).isValidChar := .inr ⟨by omega, by omega⟩
  rw [Char.ofNat, dif_pos valid]
  rfl

theorem ofStands_fill (c : LooseChar) :
    LooseChar.ofStands (c.fill Half.oneStand) (c.fill Half.otherStand) = c := by
  cases c with
  | char c => exact if_pos rfl
  | half n =>
    have one : (Half.oneStand n).toNat = 0x10000 + n := toNat_stand n.isLt _ (by omega) (by omega)
    have other : (Half.otherStand n).toNat = 0x10800 + n :=
      toNat_stand n.isLt _ (by omega) (by omega)
    have differ : Half.oneStand n ≠ Half.otherStand n := by
      intro same
      rw [same] at one
      omega
    rw [LooseChar.fill, LooseChar.fill, LooseChar.ofStands, if_neg differ, one,
      Nat.add_sub_cancel_left]
    exact congrArg LooseChar.half (Fin.ext (Nat.mod_eq_of_lt n.isLt))

/-- A text is known by its fillings. -/
theorem ofFillings_fill (t : LooseText) : ofFillings (fun stand => t.fill stand) = t := by
  have chars (cs : List LooseChar) :
      List.zipWith LooseChar.ofStands (cs.map (LooseChar.fill Half.oneStand))
        (cs.map (LooseChar.fill Half.otherStand)) = cs := by
    induction cs with
    | nil => rfl
    | cons c cs ih => simp only [List.map_cons, List.zipWith_cons_cons, ofStands_fill, ih]
  rw [ofFillings, fill, fill, String.toList_ofList, String.toList_ofList, chars]

theorem eq_of_fill {t u : LooseText} (same : ∀ stand, t.fill stand = u.fill stand) : t = u := by
  rw [← ofFillings_fill t, funext same, ofFillings_fill]

end LooseText

end Conformance
