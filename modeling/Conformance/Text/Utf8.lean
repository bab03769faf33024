import Conformance.Text.Hex

/-!
# UTF-8

Bytes to characters.  A lead byte settles how many continuation bytes follow and
in which range the first of them lies, so overlong forms, surrogates and numbers
above the last character are refused at the first byte that rules them out.

A fault says which bytes it is about: a byte that cannot start a character, the
bytes of a character that goes on with a wrong byte, or those of a character that
is cut off by the end.
-/

namespace Conformance.Text.Utf8

/-- Why bytes are not UTF-8. -/
inductive Reason where
  /-- A byte that starts no character. -/
  | start
  /-- A byte that does not go on with the character. -/
  | continuation
  /-- The end inside a character. -/
  | cutOff
deriving DecidableEq, Repr

/-- The wording of a reason. -/
def Reason.message : Reason → String
  | start => "invalid start byte"
  | continuation => "invalid continuation byte"
  | cutOff => "unexpected end of data"

/-- A fault in a sequence of bytes. -/
structure Fault where
  /-- Why. -/
  reason : Reason
  /-- The place of its first byte. -/
  position : Nat
  /-- Its first byte. -/
  byte : UInt8
  /-- How many bytes it is about. -/
  count : Nat
deriving DecidableEq, Repr

/-- The wording of a fault. -/
def Fault.message (f : Fault) : String :=
  let place :=
    if f.count = 1 then
      "byte 0x" ++ String.ofList (hexDigits 2 f.byte.toNat) ++ " in position " ++
        toString f.position
    else "bytes in position " ++ toString f.position ++ "-" ++
      toString (f.position + f.count - 1)
  "'utf-8' codec can't decode " ++ place ++ ": " ++ f.reason.message

/-- A character of which some bytes are read. -/
structure Pending where
  /-- The place of its lead byte. -/
  position : Nat
  /-- Its lead byte. -/
  lead : UInt8
  /-- How many of its bytes are read. -/
  taken : Nat
  /-- How many of its bytes are missing. -/
  missing : Nat
  /-- The bits read so far. -/
  bits : Nat
  /-- The least that the next byte may be. -/
  low : UInt8
  /-- The greatest that the next byte may be. -/
  high : UInt8

/-- What a byte starts: how many bytes follow, its bits, and the range of the next byte. -/
def lead? (b : UInt8) : Option (Nat × Nat × UInt8 × UInt8) :=
  if 0xC2 ≤ b && b ≤ 0xDF then some (1, b.toNat - 0xC0, 0x80, 0xBF)
  else if b == 0xE0 then some (2, 0, 0xA0, 0xBF)
  else if b == 0xED then some (2, 0xD, 0x80, 0x9F)
  else if 0xE1 ≤ b && b ≤ 0xEF then some (2, b.toNat - 0xE0, 0x80, 0xBF)
  else if b == 0xF0 then some (3, 0, 0x90, 0xBF)
  else if 0xF1 ≤ b && b ≤ 0xF3 then some (3, b.toNat - 0xF0, 0x80, 0xBF)
  else if b == 0xF4 then some (3, 4, 0x80, 0x8F)
  else none

/-- The characters of bytes from a place on, behind those already read, the latest first. -/
def decodeFrom (position : Nat) (pending : Option Pending) (before : List Char) :
    List UInt8 → Except Fault (List Char)
  | [] =>
    match pending with
    | none => .ok before.reverse
    | some p => .error ⟨.cutOff, p.position, p.lead, p.taken⟩
  | b :: bs =>
    match pending with
    | none =>
      if b < 0x80 then decodeFrom (position + 1) none (Char.ofNat b.toNat :: before) bs
      else match lead? b with
        | none => .error ⟨.start, position, b, 1⟩
        | some (missing, bits, low, high) =>
          decodeFrom (position + 1) (some ⟨position, b, 1, missing, bits, low, high⟩) before bs
    | some p =>
      if p.low ≤ b && b ≤ p.high then
        let bits := p.bits * 64 + (b.toNat - 0x80)
        if p.missing = 1 then decodeFrom (position + 1) none (Char.ofNat bits :: before) bs
        else
          let next := { p with
            taken := p.taken + 1, missing := p.missing - 1, bits, low := 0x80, high := 0xBF }
          decodeFrom (position + 1) (some next) before bs
      else .error ⟨.continuation, p.position, p.lead, p.taken⟩

/-- The text that bytes write. -/
def decode (bytes : List UInt8) : Except Fault String :=
  (decodeFrom 0 none [] bytes).map String.ofList

example : decode [0x61, 0xC3, 0xA9, 0xF0, 0x9F, 0x98, 0x80] = .ok "aé😀" := rfl
example : decode [0x61, 0xF0, 0x9F, 0x98] = .error ⟨.cutOff, 1, 0xF0, 3⟩ := rfl

end Conformance.Text.Utf8
