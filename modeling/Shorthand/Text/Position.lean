/-!
# Positions in a text

A message says where in a text something is wrong: on which line, and after how many bytes of it.
-/

namespace Shorthand.Text

/-- A place between the characters of a text. -/
structure Position where
  line : Nat
  /-- The number of bytes of the line before the place. -/
  column : Nat
deriving DecidableEq, Repr

namespace Position

/-- The place after one more character. -/
def next (p : Position) (c : Char) : Position :=
  if c = '\n' then ⟨p.line + 1, 0⟩ else ⟨p.line, p.column + c.utf8Size⟩

/-- The place after a text. -/
def after (text : List Char) : Position :=
  text.foldl next ⟨1, 0⟩

/-- The place in a text at which `rest` of it is left. -/
def before (text rest : List Char) : Position :=
  after (text.take (text.length - rest.length))

/-- How a message names a place. -/
def message (p : Position) : String :=
  s!"line {p.line} column {p.column}"

end Position

end Shorthand.Text
