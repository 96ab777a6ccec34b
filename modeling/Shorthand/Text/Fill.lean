/-!
# Filling lines

Words are put on lines of a limited width, as many on each as fit. A word that is too wide for any line
stands alone.
-/

namespace Shorthand.Text

/-- What every line of a filled text starts with. -/
def indent : String := "    "

/-- Puts words on lines, where `line` is begun and holds a word already. -/
def fillFrom (width : Nat) (line : String) : (words : List String) → List String
  | [] => [line]
  | word :: words =>
    if line.length + 1 + word.length ≤ width then fillFrom width (line ++ " " ++ word) words
    else line :: fillFrom width (indent ++ word) words

/-- The lines of a text that consists of the given words. Without any word there is one empty
line. -/
def fill (width : Nat) : (words : List String) → List String
  | [] => [indent]
  | word :: words => fillFrom width (indent ++ word) words

/-- The items of a list, each with the comma that follows it. -/
def separate : (items : List String) → List String
  | [] => []
  | [item] => [item]
  | item :: next :: items => (item ++ ",") :: separate (next :: items)

example : fill 15 (separate ["0x00", "0x01", "0x02"]) = ["    0x00, 0x01,", "    0x02"] := by cbv

end Shorthand.Text
