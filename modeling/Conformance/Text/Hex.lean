/-!
# Hexadecimal digits

Numbers in hexadecimal with a fixed count of digits, in lower case.
-/

namespace Conformance.Text

/-- The low hexadecimal digits of a number, `count` of them. -/
def hexDigits : (count : Nat) → Nat → List Char
  | 0, _ => []
  | count + 1, n => hexDigits count (n / 16) ++ [Nat.digitChar (n % 16)]

@[simp] theorem length_hexDigits (count n : Nat) : (hexDigits count n).length = count := by
  induction count generalizing n with
  | zero => rfl
  | succ count ih => simp [hexDigits, ih]

end Conformance.Text
