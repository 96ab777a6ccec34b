import Shorthand.Matcher

/-!
# Edits

When a rule fires, the runtime deletes some characters before the cursor and then types an output.
`Goal.edit` finds the least such edit that takes a screen to the target of a goal: everything up to
the first difference stays.

On the screen, spaces stand as word breaks, because that is how keys reach the runtime. In an
output they stand as spaces, because that is what is typed.
-/

namespace Shorthand

/-- What the runtime does when a rule fires. -/
structure Edit where
  /-- The number of characters to delete. -/
  backspaces : Nat
  /-- The number of the output function that follows, or zero for none. -/
  outputFunc : Nat
  output : String
deriving DecidableEq, Repr, Inhabited

/-- Why a rule has no edit. -/
inductive ResolveError where
  -- More deletions than a table entry can hold.
  | tooManyBackspaces (context : String) (count : Nat)
  -- More output than a table entry can hold.
  | outputTooLong (context : String) (length : Nat)
  -- What is on screen for the rule depends on the rule itself.
  | cycle (context : String)
deriving DecidableEq, Repr

namespace Edit

/-- The largest number of deletions. -/
def maxBackspaces : Nat := 15

/-- The largest number of characters of an output. -/
def maxOutputLength : Nat := 127

/-- A typed text as it stands on the screen. -/
def onScreen (wordbreak : Char) (text : List Char) : List Char :=
  text.map fun c => if c = ' ' then wordbreak else c

/-- A text of the screen as it is typed. -/
def asTyped (wordbreak : Char) (text : List Char) : List Char :=
  text.map fun c => if c = wordbreak then ' ' else c

/-- The length of the longest common beginning of two texts. -/
def commonLength : List Char → List Char → Nat
  | a :: s, b :: t => if a = b then commonLength s t + 1 else 0
  | _, _ => 0

end Edit

/-- A screen without the word break it may start with. -/
def stripWordbreak (wordbreak : Char) : List Char → List Char
  | [] => []
  | c :: screen => if c = wordbreak then screen else c :: screen

/-- The least edit that turns `screen` into the target of a goal. -/
def Goal.edit (goal : Goal) (wordbreak : Char) (screen : List Char) : Except ResolveError Edit :=
  let target := goal.target.toList
  let kept := Edit.commonLength screen target
  let backspaces := screen.length - kept
  let output := target.drop kept
  if Edit.maxBackspaces < backspaces then .error (.tooManyBackspaces goal.context backspaces)
  else if Edit.maxOutputLength < output.length then
    .error (.outputTooLong goal.context output.length)
  else .ok ⟨backspaces, goal.outputFunc, String.ofList (Edit.asTyped wordbreak output)⟩

/-- The text of a resolve error. -/
def ResolveError.message : ResolveError → String
  | .tooManyBackspaces context count =>
    s!"sequence {Text.quote context} requires {count} backspaces, " ++
      s!"at most {Edit.maxBackspaces} are supported"
  | .outputTooLong context length =>
    s!"sequence {Text.quote context} outputs {length} characters, " ++
      s!"at most {Edit.maxOutputLength} are supported"
  | .cycle context => s!"resolving sequence {Text.quote context} depends on its own result"

end Shorthand
