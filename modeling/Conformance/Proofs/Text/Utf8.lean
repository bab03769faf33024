import Conformance.Text.Utf8

/-!
# Bytes and texts

Bytes are read as a text just where they are the bytes of this text
(`decode_eq_ok_iff`): no character has a second writing, and nothing that is no
character gets read.  A character above the first 128 is a lead byte with the
bytes that complete it (`Completes`), and this one notion is used in both
directions: what a character is encoded as completes, and what completes is how
the character is encoded.
-/

namespace Conformance.Text.Utf8

/-! ## Lead bytes -/

/-- The number that the bytes behind a lead byte make of its bits. -/
def gathered (bits : Nat) (behind : List UInt8) : Nat :=
  behind.foldl (fun n b => n * 64 + (b.toNat - 0x80)) bits

/-- Bytes behind a lead byte: the first in a range, the others in that of all continuation
bytes. -/
def Continues (low high : UInt8) : List UInt8 → Prop
  | [] => True
  | b :: bs => low ≤ b ∧ b ≤ high ∧ Continues 0x80 0xBF bs

/-- The least that may stand behind a lead byte. -/
def lowBehind (b : UInt8) : UInt8 :=
  if b = 0xE0 then 0xA0 else if b = 0xF0 then 0x90 else 0x80

/-- The greatest that may stand behind a lead byte. -/
def highBehind (b : UInt8) : UInt8 :=
  if b = 0xED then 0x9F else if b = 0xF4 then 0x8F else 0xBF

/-- The ranges of lead bytes. -/
theorem lead?_eq (b : UInt8) : lead? b =
    if 0xC2 ≤ b.toNat ∧ b.toNat ≤ 0xDF then
      some (1, b.toNat - 0xC0, lowBehind b, highBehind b)
    else if 0xE0 ≤ b.toNat ∧ b.toNat ≤ 0xEF then
      some (2, b.toNat - 0xE0, lowBehind b, highBehind b)
    else if 0xF0 ≤ b.toNat ∧ b.toNat ≤ 0xF4 then
      some (3, b.toNat - 0xF0, lowBehind b, highBehind b)
    else none := by
  have all : ∀ n : Fin 256, lead? (UInt8.ofFin n) =
      if 0xC2 ≤ n.val ∧ n.val ≤ 0xDF then
        some (1, n.val - 0xC0, lowBehind (UInt8.ofFin n), highBehind (UInt8.ofFin n))
      else if 0xE0 ≤ n.val ∧ n.val ≤ 0xEF then
        some (2, n.val - 0xE0, lowBehind (UInt8.ofFin n), highBehind (UInt8.ofFin n))
      else if 0xF0 ≤ n.val ∧ n.val ≤ 0xF4 then
        some (3, n.val - 0xF0, lowBehind (UInt8.ofFin n), highBehind (UInt8.ofFin n))
      else none := by decide +kernel
  exact all b.toFin

theorem lowBehind_le {b x : UInt8} : lowBehind b ≤ x ↔
    0x80 ≤ x.toNat ∧ (b.toNat = 0xE0 → 0xA0 ≤ x.toNat) ∧ (b.toNat = 0xF0 → 0x90 ≤ x.toNat) := by
  rw [UInt8.le_iff_toNat_le, lowBehind]
  split
  next e => simp [e]; omega
  split
  next e => simp [e]; omega
  next e e' =>
    simp only [← UInt8.toNat_inj, UInt8.toNat_ofNat] at e e'
    simp [e, e']

theorem le_highBehind {b x : UInt8} : x ≤ highBehind b ↔
    x.toNat ≤ 0xBF ∧ (b.toNat = 0xED → x.toNat ≤ 0x9F) ∧ (b.toNat = 0xF4 → x.toNat ≤ 0x8F) := by
  rw [UInt8.le_iff_toNat_le, highBehind]
  split
  next e => simp [e]; omega
  split
  next e => simp [e]; omega
  next e e' =>
    simp only [← UInt8.toNat_inj, UInt8.toNat_ofNat] at e e'
    simp [e, e']

theorem continuation_iff {x : UInt8} : ((0x80 : UInt8) ≤ x ∧ x ≤ 0xBF) ↔
    0x80 ≤ x.toNat ∧ x.toNat ≤ 0xBF := by
  simp [UInt8.le_iff_toNat_le]

theorem ascii_iff {b : UInt8} : b < 0x80 ↔ b.toNat < 0x80 := by
  simp [UInt8.lt_iff_toNat_lt]

theorem toNat_val_ofNat {n : Nat} (valid : n.isValidChar) : (Char.ofNat n).val.toNat = n := by
  rw [Char.ofNat, dif_pos valid]
  rfl

/-- A lead byte and the bytes behind it write the character of a number. -/
structure Completes (b : UInt8) (behind : List UInt8) (n : Nat) : Prop where
  /-- As many bytes as the lead byte asks for make this number. -/
  lead : ∃ bits, lead? b = some (behind.length, bits, lowBehind b, highBehind b) ∧
    gathered bits behind = n
  /-- They lie in the ranges that the lead byte sets. -/
  continues : Continues (lowBehind b) (highBehind b) behind

/-- What a lead byte and the bytes behind it write is encoded as just these. -/
theorem Completes.encodeChar {b : UInt8} {behind : List UInt8} {n : Nat}
    (h : Completes b behind n) : String.utf8EncodeChar (Char.ofNat n) = b :: behind := by
  obtain ⟨⟨bits, lead, rfl⟩, continues⟩ := h
  rw [lead?_eq] at lead
  split at lead
  next two =>
    obtain ⟨all, rfl⟩ : 1 = behind.length ∧ b.toNat - 0xC0 = bits := by simpa using lead
    match behind, all, continues with
    | [x], _, ⟨least, most, _⟩ =>
      rw [lowBehind_le] at least
      rw [le_highBehind] at most
      have number : (Char.ofNat (gathered (b.toNat - 0xC0) [x])).val.toNat =
          (b.toNat - 0xC0) * 64 + (x.toNat - 0x80) :=
        toNat_val_ofNat (by simp [gathered, Nat.isValidChar]; omega)
      rw [String.utf8EncodeChar, number, if_neg (by omega), if_pos (by omega)]
      simp [← UInt8.toNat_inj]
      omega
  split at lead
  next three =>
    obtain ⟨all, rfl⟩ : 2 = behind.length ∧ b.toNat - 0xE0 = bits := by simpa using lead
    match behind, all, continues with
    | [x, y], _, ⟨least, most, least', most', _⟩ =>
      rw [lowBehind_le] at least
      rw [le_highBehind] at most
      obtain ⟨least', most'⟩ := continuation_iff.mp ⟨least', most'⟩
      have number : (Char.ofNat (gathered (b.toNat - 0xE0) [x, y])).val.toNat =
          ((b.toNat - 0xE0) * 64 + (x.toNat - 0x80)) * 64 + (y.toNat - 0x80) :=
        toNat_val_ofNat (by simp [gathered, Nat.isValidChar]; omega)
      rw [String.utf8EncodeChar, number, if_neg (by omega), if_neg (by omega),
        if_pos (by omega)]
      simp [← UInt8.toNat_inj]
      omega
  split at lead
  next four =>
    obtain ⟨all, rfl⟩ : 3 = behind.length ∧ b.toNat - 0xF0 = bits := by simpa using lead
    match behind, all, continues with
    | [x, y, z], _, ⟨least, most, least', most', least'', most'', _⟩ =>
      rw [lowBehind_le] at least
      rw [le_highBehind] at most
      obtain ⟨least', most'⟩ := continuation_iff.mp ⟨least', most'⟩
      obtain ⟨least'', most''⟩ := continuation_iff.mp ⟨least'', most''⟩
      have number : (Char.ofNat (gathered (b.toNat - 0xF0) [x, y, z])).val.toNat =
          (((b.toNat - 0xF0) * 64 + (x.toNat - 0x80)) * 64 + (y.toNat - 0x80)) * 64 +
            (z.toNat - 0x80) :=
        toNat_val_ofNat (by simp [gathered, Nat.isValidChar]; omega)
      rw [String.utf8EncodeChar, number, if_neg (by omega), if_neg (by omega),
        if_neg (by omega)]
      simp [← UInt8.toNat_inj]
      omega
  next => cases lead

/-- A character above the first 128 is encoded as a lead byte and the bytes behind it. -/
theorem exists_completes {c : Char} (wide : 0x80 ≤ c.toNat) :
    ∃ b behind, String.utf8EncodeChar c = b :: behind ∧ 0x80 ≤ b.toNat ∧ behind ≠ [] ∧
      Completes b behind c.toNat := by
  have valid : c.toNat.isValidChar := c.valid
  unfold Nat.isValidChar at valid
  rw [String.utf8EncodeChar, Char.toNat_val]
  generalize c.toNat = n at valid wide ⊢
  rw [if_neg (by omega)]
  split
  · refine ⟨_, _, rfl, by simp; omega, by simp, ⟨n / 64, ?_, ?_⟩, ?_⟩
    · rw [lead?_eq, if_pos (by simp; omega)]
      simp
      omega
    · simp [gathered]
      omega
    · simp only [Continues, lowBehind_le, le_highBehind]
      simp
      omega
  split
  · refine ⟨_, _, rfl, by simp; omega, by simp, ⟨n / 4096, ?_, ?_⟩, ?_⟩
    · rw [lead?_eq, if_neg (by simp; omega), if_pos (by simp; omega)]
      simp
      omega
    · simp [gathered]
      omega
    · simp only [Continues, lowBehind_le, le_highBehind, ← and_assoc, continuation_iff]
      simp
      omega
  · refine ⟨_, _, rfl, by simp; omega, by simp, ⟨n / 262144, ?_, ?_⟩, ?_⟩
    · rw [lead?_eq, if_neg (by simp; omega), if_neg (by simp; omega), if_pos (by simp; omega)]
      simp
      omega
    · simp [gathered]
      omega
    · simp only [Continues, lowBehind_le, le_highBehind, ← and_assoc, continuation_iff]
      simp
      omega

/-! ## Single characters -/

/-- The bytes behind a lead byte finish its character. -/
theorem decodeFrom_behind {position : Nat} {p : Pending} {before : List Char}
    {behind rest : List UInt8} (all : behind.length = p.missing) (some : p.missing ≠ 0)
    (continues : Continues p.low p.high behind) :
    decodeFrom position (.some p) before (behind ++ rest) =
      decodeFrom (position + behind.length) none (Char.ofNat (gathered p.bits behind) :: before)
        rest := by
  induction behind generalizing position p with
  | nil => exact absurd all.symm some
  | cons b bs ih =>
    obtain ⟨low, high, others⟩ := continues
    have inside : (p.low ≤ b && b ≤ p.high) = true := by simp [low, high]
    rw [List.cons_append, decodeFrom]
    simp only [inside, if_true]
    split
    next last =>
      obtain rfl : bs = [] := List.length_eq_zero_iff.mp (Nat.succ.inj (all.trans last))
      simp [gathered]
    next more =>
      have count : bs.length = p.missing - 1 := by simp [← all]
      have left : p.missing - 1 ≠ 0 := by omega
      rw [ih count left others, List.length_cons, Nat.add_assoc, Nat.add_comm 1]
      simp only [gathered, List.foldl_cons]

/-- Where a character that is begun gets read, the bytes that were missing stand. -/
theorem exists_behind {position : Nat} {p : Pending} {before cs : List Char} {bytes : List UInt8}
    (some : p.missing ≠ 0) (decoded : decodeFrom position (.some p) before bytes = .ok cs) :
    ∃ behind rest, bytes = behind ++ rest ∧ behind.length = p.missing ∧
      Continues p.low p.high behind := by
  induction bytes generalizing position p with
  | nil => cases decoded
  | cons b bs ih =>
    rw [decodeFrom] at decoded
    simp only at decoded
    split at decoded
    next inside =>
      obtain ⟨low, high⟩ : p.low ≤ b ∧ b ≤ p.high := by simpa using inside
      split at decoded
      next last => exact ⟨[b], bs, rfl, last.symm, low, high, trivial⟩
      next more =>
        obtain ⟨behind, rest, rfl, all, continues⟩ := ih (by simp only; omega) decoded
        refine ⟨b :: behind, rest, rfl, ?_, low, high, continues⟩
        simp only [List.length_cons] at all ⊢
        omega
    next => cases decoded

/-- The bytes of a character above the first 128 are read as this character. -/
theorem Completes.decodeFrom {b : UInt8} {behind : List UInt8} {n : Nat} (h : Completes b behind n)
    (wide : 0x80 ≤ b.toNat) (some : behind ≠ []) (position : Nat) (before : List Char)
    (rest : List UInt8) :
    decodeFrom position none before (b :: (behind ++ rest)) =
      decodeFrom (position + 1 + behind.length) none (Char.ofNat n :: before) rest := by
  obtain ⟨⟨bits, lead, rfl⟩, continues⟩ := h
  have notAscii : ¬ b < 0x80 := by
    rw [ascii_iff]
    omega
  rw [Utf8.decodeFrom]
  simp only [notAscii, if_false, lead]
  exact decodeFrom_behind rfl (fun none => some (List.length_eq_zero_iff.mp none)) continues

/-- The bytes of a character are read as this character. -/
theorem decodeFrom_encodeChar (position : Nat) (c : Char) (before : List Char)
    (rest : List UInt8) :
    ∃ place, decodeFrom position none before (String.utf8EncodeChar c ++ rest) =
      decodeFrom place none (c :: before) rest := by
  by_cases wide : 0x80 ≤ c.toNat
  · obtain ⟨b, behind, encoded, high, some, completes⟩ := exists_completes wide
    refine ⟨position + 1 + behind.length, ?_⟩
    rw [encoded, List.cons_append, completes.decodeFrom high some, Char.ofNat_toNat]
  · have ascii : c.toNat < 0x80 := by omega
    have encoded : String.utf8EncodeChar c = [UInt8.ofNat c.toNat] := by
      rw [String.utf8EncodeChar, Char.toNat_val, if_pos (by omega)]
    have number : (UInt8.ofNat c.toNat).toNat = c.toNat := by
      rw [UInt8.toNat_ofNat']
      exact Nat.mod_eq_of_lt (by omega)
    have least : UInt8.ofNat c.toNat < 0x80 := by
      rw [ascii_iff, number]
      exact ascii
    refine ⟨position + 1, ?_⟩
    rw [encoded, List.singleton_append, decodeFrom]
    simp only [least, if_true, number, Char.ofNat_toNat]

/-- Where bytes are read, those of a first character stand before the others. -/
theorem exists_encodeChar {position : Nat} {before cs : List Char} {b : UInt8} {bs : List UInt8}
    (decoded : decodeFrom position none before (b :: bs) = .ok cs) :
    ∃ c rest place, b :: bs = String.utf8EncodeChar c ++ rest ∧
      decodeFrom place none (c :: before) rest = .ok cs := by
  have self := decoded
  rw [decodeFrom] at decoded
  split at decoded
  next ascii =>
    rw [ascii_iff] at ascii
    have number : (Char.ofNat b.toNat).val.toNat = b.toNat := toNat_val_ofNat (.inl (by omega))
    refine ⟨Char.ofNat b.toNat, bs, position + 1, ?_, decoded⟩
    rw [String.utf8EncodeChar, number, if_pos (by omega)]
    simp
  next notAscii =>
    rw [ascii_iff] at notAscii
    split at decoded
    next => cases decoded
    next missing bits low high lead =>
      obtain ⟨some, rfl, rfl⟩ :
          missing ≠ 0 ∧ low = lowBehind b ∧ high = highBehind b := by
        rw [lead?_eq] at lead
        repeat'
          split at lead
        all_goals simp at lead
        all_goals
          obtain ⟨rfl, -, rfl, rfl⟩ := lead
          simp
      obtain ⟨behind, rest, rfl, rfl, continues⟩ := exists_behind some decoded
      have completes : Completes b behind (gathered bits behind) := ⟨⟨bits, lead, rfl⟩, continues⟩
      rw [completes.decodeFrom (by omega) (by rintro rfl; exact some rfl)] at self
      exact ⟨_, rest, _, by rw [completes.encodeChar]; rfl, self⟩

/-! ## Texts -/

theorem decodeFrom_encoded (position : Nat) (before cs : List Char) :
    decodeFrom position none before (cs.flatMap String.utf8EncodeChar) =
      .ok (before.reverse ++ cs) := by
  induction cs generalizing position before with
  | nil => simp [decodeFrom]
  | cons c cs ih =>
    obtain ⟨place, step⟩ :=
      decodeFrom_encodeChar position c before (cs.flatMap String.utf8EncodeChar)
    rw [List.flatMap_cons, step, ih]
    simp

/-- Bytes that are read are those of the characters. -/
theorem encoded_of_decodeFrom {position : Nat} {before cs : List Char} {bytes : List UInt8}
    (decoded : decodeFrom position none before bytes = .ok cs) :
    ∃ ds, cs = before.reverse ++ ds ∧ bytes = ds.flatMap String.utf8EncodeChar := by
  -- A character has at least one byte, so the bytes behind the first character are fewer.
  induction count : bytes.length using Nat.strongRecOn generalizing position before bytes with
  | ind n ih =>
    match bytes with
    | [] =>
      rw [decodeFrom] at decoded
      exact ⟨[], by simpa using decoded.symm, rfl⟩
    | b :: bs =>
      obtain ⟨c, rest, place, split, decoded⟩ := exists_encodeChar decoded
      have fewer : rest.length < n := by
        rw [← count, split, List.length_append]
        have := String.utf8EncodeChar_ne_nil (c := c)
        have := List.length_pos_iff.mpr this
        omega
      obtain ⟨ds, rfl, rfl⟩ := ih _ fewer decoded rfl
      exact ⟨c :: ds, by simp, by rw [split, List.flatMap_cons]⟩

theorem toList_loop (bytes : ByteArray) (place : Nat) (before : List UInt8) :
    ByteArray.toList.loop bytes place before = before.reverse ++ bytes.data.toList.drop place := by
  induction place, before using ByteArray.toList.loop.induct bytes with
  | case1 place before more ih =>
    have inside : place < bytes.data.toList.length := more
    have first : bytes.get! place = bytes.data.toList[place] := by
      rw [ByteArray.get!, getElem!_pos bytes.data place more]
      rfl
    rw [ByteArray.toList.loop, if_pos more, ih, first, List.drop_eq_getElem_cons inside]
    simp
  | case2 place before done =>
    have all : bytes.data.toList.length ≤ place := Nat.le_of_not_lt done
    rw [ByteArray.toList.loop, if_neg done, List.drop_of_length_le all, List.append_nil]

/-- The bytes of a text are those of its characters. -/
theorem toList_toUTF8 (text : String) :
    text.toUTF8.toList = text.toList.flatMap String.utf8EncodeChar := by
  rw [ByteArray.toList, toList_loop, List.reverse_nil, List.nil_append, List.drop_zero]
  show text.toByteArray.data.toList = _
  rw [← String.utf8Encode_toList, List.utf8Encode, List.toList_data_toByteArray]

/-- Bytes are read as a text just where they are its bytes. -/
theorem decode_eq_ok_iff {bytes : List UInt8} {text : String} :
    decode bytes = .ok text ↔ bytes = text.toUTF8.toList := by
  rw [toList_toUTF8, decode]
  constructor
  · intro decoded
    cases read : decodeFrom 0 none [] bytes with
    | error fault =>
      rw [read] at decoded
      cases decoded
    | ok cs =>
      rw [read] at decoded
      obtain rfl : String.ofList cs = text := by simpa [Except.map] using decoded
      obtain ⟨ds, rfl, rfl⟩ := encoded_of_decodeFrom read
      simp
  · rintro rfl
    simp [decodeFrom_encoded, Except.map]

end Conformance.Text.Utf8
