import Shorthand.Text.Blank

/-!
# Lines and separators

A text is cut into lines at line feeds, and a line in two at the first place where a separator
stands. Both functions run over the characters once.
-/

namespace Shorthand.Text

/-- Drops the carriage return that directly precedes a line feed. The line is given backwards. -/
def dropReturn : List Char → List Char
  | '\r' :: line => line
  | line => line

/-- The lines of a text. A line ends at a line feed, and one carriage return before it belongs to
the ending. Text after the last line feed is a line unless it is empty. -/
def lines (text : List Char) : List (List Char) :=
  go text []
where
  /-- The lines of `line.reverse ++ rest`, where `line` holds no line feed. -/
  go : (rest line : List Char) → List (List Char)
    | [], [] => []
    | [], c :: line => [(c :: line).reverse]
    | c :: rest, line =>
      if c = '\n' then (dropReturn line).reverse :: go rest [] else go rest (c :: line)

/-- The parts before and after the first occurrence of `separator`, if it occurs. The empty
separator occurs at the very start. -/
def splitFirst? (separator text : List Char) : Option (List Char × List Char) :=
  go text []
where
  /-- The split of `before.reverse ++ rest`, where no occurrence starts within `before`. -/
  go : (rest before : List Char) → Option (List Char × List Char)
    | [], before => if separator.isEmpty then some (before.reverse, []) else none
    | c :: rest, before =>
      if separator.isPrefixOf (c :: rest) then
        some (before.reverse, (c :: rest).drop separator.length)
      else go rest (c :: before)

example : lines "a\r\n\nb\r".toList = ["a".toList, [], "b\r".toList] := by decide

example : splitFirst? "->".toList "a->b->c".toList = some ("a".toList, "b->c".toList) := by decide

end Shorthand.Text
