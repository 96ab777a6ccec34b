import Shorthand.Json.Quoted
import Shorthand.Text.Blank
import Shorthand.Text.Hex
import Mathlib.Algebra.Ring.Nat
import Mathlib.Data.List.Basic
import Std.Data.String.ToNat

/-!
# Numbers as texts

Decimal numbers and hexadecimal literals have letters and digits only, so none of the characters that
structure a text stands in them. A literal is read back by `Hex.value?` as the number, as far as its digits
reach.
-/

namespace Shorthand.Text

/-- White space is neither a letter nor a digit. -/
theorem isBlank_eq_false {c : Char} (h : c.isAlphanum) : isBlank c = false := by
  have h : (decide ('A'.val ≤ c.val ∧ c.val ≤ 'Z'.val) || 'a'.val ≤ c.val && c.val ≤ 'z'.val ||
    '0'.val ≤ c.val && c.val ≤ '9'.val) = true := h
  simp only [Bool.or_eq_true, Bool.and_eq_true, decide_eq_true_eq,
    UInt32.le_iff_toNat_le] at h
  have hrange : (65 ≤ c.toNat ∧ c.toNat ≤ 90 ∨ 97 ≤ c.toNat ∧ c.toNat ≤ 122) ∨
      48 ≤ c.toNat ∧ c.toNat ≤ 57 := h
  simp only [isBlank, Bool.or_eq_false_iff, Bool.and_eq_false_iff, decide_eq_false_iff_not,
    beq_eq_false_iff_ne]
  omega

theorem isAlphanum_of_mem_toString {n : Nat} {c : Char} (h : c ∈ (toString n).toList) :
    c.isAlphanum := by
  rw [Nat.toString_eq_repr, Nat.toList_repr] at h
  have hdigit : c.isDigit := Nat.isDigit_of_mem_toDigits (by decide) (by decide) h
  rw [Char.isAlphanum, hdigit, Bool.or_true]

theorem not_mem_toString {c : Char} (n : Nat) (h : c.isAlphanum = false) : c ∉ (toString n).toList :=
  fun hmem => Bool.false_ne_true (h.symm.trans (isAlphanum_of_mem_toString hmem))

namespace Hex

variable {n width : Nat} {c : Char}

/-- The number that a literal stands for. -/
def value? (text : List Char) : Option Nat :=
  match text with
  | '0' :: 'x' :: first :: rest =>
    (first :: rest).foldlM (fun n c => (Json.Quoted.hexValue? c).map (n * 16 + ·)) 0
  | _ => none

theorem isAlphanum_digit (h : n < 16) : (digit n).isAlphanum := by
  revert n
  decide

theorem hexValue?_digit (h : n < 16) : Json.Quoted.hexValue? (digit n) = some n := by
  revert n
  decide

theorem isAlphanum_of_mem_digits (h : c ∈ digits width n) : c.isAlphanum := by
  induction width generalizing n with
  | zero => cases h
  | succ width ih =>
    rcases List.mem_append.mp h with h | h
    · exact ih h
    · rw [List.mem_singleton.mp h]
      exact isAlphanum_digit (Nat.mod_lt _ (by decide))

theorem toList_literal (width n : Nat) :
    (literal width n).toList = '0' :: 'x' :: digits width n := by
  simp [literal]

theorem length_literal (width n : Nat) : (literal width n).length = width + 2 := by
  rw [← String.length_toList, toList_literal, List.length_cons, List.length_cons, length_digits]

theorem isAlphanum_of_mem_literal (h : c ∈ (literal width n).toList) : c.isAlphanum := by
  rw [toList_literal] at h
  rcases List.mem_cons.mp h with rfl | h
  · rfl
  rcases List.mem_cons.mp h with rfl | h
  · rfl
  · exact isAlphanum_of_mem_digits h

theorem not_mem_literal (h : c.isAlphanum = false) : c ∉ (literal width n).toList :=
  fun hmem => Bool.false_ne_true (h.symm.trans (isAlphanum_of_mem_literal hmem))

/-- Digits continue the number that was read before them. -/
theorem foldlM_digits (width n before : Nat) :
    (digits width n).foldlM (fun n c => (Json.Quoted.hexValue? c).map (n * 16 + ·)) before =
      some (before * 16 ^ width + n % 16 ^ width) := by
  induction width generalizing n with
  | zero => simp [digits, Nat.mod_one]
  | succ width ih =>
    have hlast : n % 16 < 16 := Nat.mod_lt _ (by decide)
    have hmod : n % 16 ^ (width + 1) = n % 16 + 16 * (n / 16 % 16 ^ width) := by
      rw [Nat.pow_succ', Nat.mod_mul]
    rw [digits, List.foldlM_append, ih, Option.bind_eq_bind, Option.bind_some]
    simp only [List.foldlM_cons, List.foldlM_nil, hexValue?_digit hlast, Option.map_some,
      Option.bind_eq_bind, Option.bind_some, Option.pure_def, Option.some.injEq]
    rw [hmod, Nat.pow_succ, ← Nat.mul_assoc]
    omega

/-- A literal of at least one digit is read back if the number has no more digits. -/
theorem value?_literal (hwidth : width ≠ 0) (h : n < 16 ^ width) :
    value? (literal width n).toList = some n := by
  obtain ⟨first, rest, hdigits⟩ : ∃ first rest, digits width n = first :: rest := by
    apply List.exists_cons_of_length_pos
    rw [length_digits]
    exact Nat.pos_of_ne_zero hwidth
  rw [toList_literal, hdigits, value?, ← hdigits, foldlM_digits, Nat.zero_mul, Nat.zero_add,
    Nat.mod_eq_of_lt h]

end Hex

end Shorthand.Text
