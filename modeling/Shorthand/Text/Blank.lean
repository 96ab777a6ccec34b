/-!
# White space

The characters that count as blank around the parts of a dictionary line, and trimming.

The class is the property White_Space of the character standard. It is wider than the six ASCII
blanks: it holds the no-break space and the ideographic space, but not the zero-width characters.
-/

namespace Shorthand.Text

/-- Whether a character is white space. -/
def isBlank (c : Char) : Bool :=
  let n := c.toNat
  (0x09 ≤ n && n ≤ 0x0D) || n == 0x20 || n == 0x85 || n == 0xA0 || n == 0x1680 ||
    (0x2000 ≤ n && n ≤ 0x200A) || n == 0x2028 || n == 0x2029 || n == 0x202F || n == 0x205F ||
    n == 0x3000

/-- A text without the white space at either end. -/
def trim (text : List Char) : List Char :=
  ((text.dropWhile isBlank).reverse.dropWhile isBlank).reverse

end Shorthand.Text
