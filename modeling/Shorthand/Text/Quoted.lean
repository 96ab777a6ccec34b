import Shorthand.Text.Combining
import Shorthand.Text.Unprintable

/-!
# Quoted text

Texts and characters as messages show them: between quotes, with everything that a reader could not
see or would misread spelt out. A tab, a line feed, a carriage return, a NUL, a backslash and the
quote itself have short spellings; every other character without a shape of its own, be it
unprintable or a combining mark, is spelt by its number, as in `\u{200b}`.
-/

namespace Shorthand.Text

/-- Whether a character shows as itself wherever it stands. -/
def hasShape (c : Char) : Bool :=
  !unprintable.covers c.toNat && !combining.covers c.toNat

/-- A character shows as itself exactly if no range of either class holds it. -/
theorem hasShape_iff {c : Char} :
    hasShape c = true ↔ ∀ r ∈ unprintable ++ combining, ¬ (r.1 ≤ c.toNat ∧ c.toNat ≤ r.2) := by
  have hunprintable := Ranges.covers_iff (n := c.toNat) ascending_unprintable
  have hcombining := Ranges.covers_iff (n := c.toNat) ascending_combining
  simp only [hasShape, Bool.and_eq_true, Bool.not_eq_true', Bool.eq_false_iff, ne_eq, hunprintable,
    hcombining, List.mem_append, or_imp, forall_and, not_exists, not_and]

/-- How a character is spelt between quotes of the kind `mark`. -/
def spell (mark c : Char) : String :=
  if c = '\x00' then "\\0"
  else if c = '\t' then "\\t"
  else if c = '\r' then "\\r"
  else if c = '\n' then "\\n"
  else if c = '\\' || c = mark then String.ofList ['\\', c]
  else if hasShape c then String.singleton c
  else "\\u\x7b" ++ String.ofList (Nat.toDigits 16 c.toNat) ++ "\x7d"

/-- A text between double quotes. -/
def quote (text : String) : String :=
  "\"" ++ String.join (text.toList.map (spell '"')) ++ "\""

/-- A character between single quotes. -/
def quoteChar (c : Char) : String :=
  "'" ++ spell '\'' c ++ "'"

example : quote "a\"'\t\u00ad\u00e9" = "\"a\\\"'\\t\\u\x7bad\x7d\u00e9\"" := by cbv

example : quote "e\u0301\u0903" = "\"e\\u\x7b301\x7d\u0903\"" := by cbv

example : quoteChar '\'' = "'\\''" := by cbv

end Shorthand.Text
