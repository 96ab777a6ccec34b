import Shorthand.Alphabet
import Shorthand.Log
import Shorthand.Text.Lines
import Std.Data.HashSet

/-!
# Dictionaries

A dictionary is a text with one rule a line: a context, which is the sequence of keys typed, a
separator, and the correction that the context turns into. Blank lines and lines that start with the
comment mark are skipped.

`Dictionary.items` cuts a text into rules, line by line; `Dictionary.rules` also checks them and
drops all but the first rule of each context.
-/

namespace Shorthand

/-- A rule of a dictionary. -/
structure Rule where
  /-- The number of the line it stands on, from one. -/
  line : Nat
  /-- The keys typed, the last of which triggers the rule. -/
  context : String
  /-- The text that is to replace them. -/
  correction : String
deriving DecidableEq, Repr, Inhabited

/-- The number of keys in the context of a rule. -/
def Rule.contextLength (r : Rule) : Nat := r.context.length

/-- The marks that structure a dictionary. -/
structure Marks where
  /-- Stands between a context and its correction. -/
  separator : String
  /-- Starts a line to be skipped. -/
  comment : String
deriving DecidableEq, Repr

/-- Why a dictionary is refused. -/
inductive DictionaryError where
  -- A line does not hold two texts with a separator between.
  | invalidLine (line : Nat) (content : String)
  -- A context has a character before its last one that is not in the alphabet.
  | invalidCharacters (line : Nat) (context : String)
  | sequenceTooLong (line : Nat) (context : String)
deriving DecidableEq, Repr

namespace Dictionary

/-- The largest number of keys in a context. -/
def maxContextLength : Nat := 127

/-- Whether a trimmed line is to be skipped. -/
def isSkipped (marks : Marks) (content : List Char) : Bool :=
  content.isEmpty || marks.comment.toList.isPrefixOf content

/-- The rule that a trimmed line holds. The first separator divides it, and neither side may be
blank. -/
def item (marks : Marks) (line : Nat) (content : List Char) : Except DictionaryError Rule :=
  match Text.splitFirst? marks.separator.toList content with
  | none => .error (.invalidLine line (String.ofList content))
  | some (before, after) =>
    let context := Text.trim before
    let correction := Text.trim after
    if context.isEmpty || correction.isEmpty then
      .error (.invalidLine line (String.ofList content))
    else .ok ⟨line, String.ofList context, String.ofList correction⟩

/-- The trimmed lines of a text that are not skipped, with their numbers. -/
def contentLines (marks : Marks) (text : String) : List (List Char × Nat) :=
  (((Text.lines text.toList).map Text.trim).zipIdx 1).filter fun (content, _) =>
    !isSkipped marks content

/-- What each line of a text holds that is not skipped. -/
def items (marks : Marks) (text : String) : List (Except DictionaryError Rule) :=
  (contentLines marks text).map fun (content, line) => item marks line content

/-- Checks the context of a rule. Its last character is the trigger, on which the trie has the
say. -/
def check (alphabet : Alphabet) (r : Rule) : Except DictionaryError Unit :=
  if !r.context.toList.dropLast.all alphabet.contains then
    .error (.invalidCharacters r.line r.context)
  else if maxContextLength < r.contextLength then .error (.sequenceTooLong r.line r.context)
  else .ok ()

/-- The rules among `items` whose contexts are new. `seen` holds the contexts accepted so far. The
first item that is no acceptable rule ends the list with its error. -/
def accept (alphabet : Alphabet) (seen : Std.HashSet String) :
    List (Except DictionaryError Rule) → LoggedExcept DictionaryError (List Rule)
  | [] => return []
  | item :: items => do
    let r ← LoggedExcept.ofExcept item
    if r.context ∈ seen then
      LoggedExcept.report (.duplicateSequence r.line r.context)
      accept alphabet seen items
    else
      LoggedExcept.ofExcept (check alphabet r)
      let later ← accept alphabet (seen.insert r.context) items
      return r :: later

/-- The rules of a dictionary, in the order of its lines. -/
def rules (alphabet : Alphabet) (marks : Marks) (text : String) :
    LoggedExcept DictionaryError (List Rule) :=
  accept alphabet ∅ (items marks text)

end Dictionary

/-- The text of a dictionary error. -/
def DictionaryError.message : DictionaryError → String
  | .invalidLine line content => s!"line {line}: invalid syntax: {Text.quote content}"
  | .invalidCharacters line context =>
    s!"line {line}: sequence {Text.quote context} has invalid characters"
  | .sequenceTooLong line context =>
    s!"line {line}: sequence exceeds {Dictionary.maxContextLength} chars: {Text.quote context}"

end Shorthand
