/-!
# Paths

A path is a text of names with slashes between. `Path.parent?` cuts off the last name and `Path.join`
puts two paths together; both keep the text as it is written and ask no file about it.

An empty name, which is what stands between two slashes in a row, and the name `.` lead nowhere and
do not count, except for a `.` at the start of a path.
-/

namespace Shorthand.Path

/-- The number of bytes that a path can have at most. -/
def maxLength : Nat := 4095

/-- The number of bytes that a name on a path can have at most. -/
def maxNameLength : Nat := 255

/-- The texts between slashes. -/
def pieces : (path : List Char) → List (List Char)
  | [] => [[]]
  | c :: path =>
    if c = '/' then [] :: pieces path
    else
      match pieces path with
      | piece :: later => (c :: piece) :: later
      | [] => [[c]]

/-- The names on a path, those that do not count included. -/
def names (path : String) : List String :=
  (pieces path.toList).map String.ofList

/-- Whether a path starts at the root. -/
def isAbsolute (path : String) : Bool :=
  path.toList.head? = some '/'

/-- The offsets at which the names end that count, where the first piece starts at `offset`. -/
def nameEnds : (offset : Nat) → (pieces : List (List Char)) → List Nat
  | _, [] => []
  | offset, piece :: later =>
    let stop := offset + piece.length
    let ends := nameEnds (stop + 1) later
    if piece.isEmpty || (piece = ['.'] && offset ≠ 0) then ends else stop :: ends

/-- The path before the last name, if there is a name. -/
def parent? (path : String) : Option String :=
  match (nameEnds 0 (pieces path.toList)).reverse with
  | [] => none
  | [_] => some (if isAbsolute path then "/" else "")
  | _ :: stop :: _ => some (String.ofList (path.toList.take stop))

/-- The second path as seen from the first. An absolute path is the same from everywhere. -/
def join (directory path : String) : String :=
  if isAbsolute path then path
  else if directory.isEmpty || directory.toList.getLast? = some '/' then directory ++ path
  else directory ++ "/" ++ path

/-- The directory that holds what a path leads to. -/
def directory (path : String) : String :=
  match parent? path with
  | none => "."
  | some parent => if parent.isEmpty then "." else parent

example : (parent? "a//b/", parent? "./c", parent? "/x", parent? "c", parent? "/.") =
    (some "a", some ".", some "/", some "", none) := by decide +kernel

end Shorthand.Path
