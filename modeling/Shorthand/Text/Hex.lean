/-!
# Hexadecimal literals

Words and bytes are written with a fixed number of upper-case digits.
-/

namespace Shorthand.Text.Hex

/-- The upper-case digit of a value below sixteen. -/
def digit (n : Nat) : Char :=
  if n < 10 then Char.ofNat ('0'.toNat + n) else Char.ofNat ('A'.toNat + (n - 10))

/-- The last `width` digits of a number. -/
def digits : (width n : Nat) → List Char
  | 0, _ => []
  | width + 1, n => digits width (n / 16) ++ [digit (n % 16)]

/-- The literal of a number with `width` digits. -/
def literal (width n : Nat) : String :=
  "0x" ++ String.ofList (digits width n)

theorem length_digits (width n : Nat) : (digits width n).length = width := by
  induction width generalizing n with
  | zero => rfl
  | succ width ih => simp [digits, ih]

example : literal 4 0x1B = "0x001B" := by decide

end Shorthand.Text.Hex
