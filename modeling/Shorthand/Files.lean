import Shorthand.Path
import Shorthand.Text.Hex
import Shorthand.Text.Quoted

/-!
# Access to files

What the program needs of the files around it: to read a text, and to handle a draft. A text that is to
replace another one is first written to a draft beside it, which then takes its place, so at no time is
there half a text (`Files.replace`).

Everything that uses files is stated over `Files`, and so runs on the machine's files as well as on a
`FileTree`.
-/

namespace Shorthand

/-- Why a file cannot be used. -/
inductive FileError where
  | notFound
  | isADirectory
  -- The path leads through a file.
  | notADirectory
  | alreadyExists
  -- The path names a directory that is in use.
  | busy
  -- The path or a name on it is too long.
  | nameTooLong
  | holdsNul
  | notText
  -- Anything else, in the words of the system.
  | other (text : String)
deriving DecidableEq, Repr

/-- The text of a file error. -/
def FileError.message : FileError → String
  | .notFound => "No such file or directory (os error 2)"
  | .isADirectory => "Is a directory (os error 21)"
  | .notADirectory => "Not a directory (os error 20)"
  | .alreadyExists => "File exists (os error 17)"
  | .busy => "Device or resource busy (os error 16)"
  | .nameTooLong => "File name too long (os error 36)"
  | .holdsNul => "file name contained an unexpected NUL byte"
  | .notText => "stream did not contain valid UTF-8"
  | .other text => text

/-- Why a text cannot be replaced. -/
inductive ReplaceError where
  -- The draft at this path cannot be written.
  | draft (path : String) (e : FileError)
  -- The draft cannot take the place of its target.
  | place (e : FileError)
deriving DecidableEq, Repr

/-- What is wrong with the file in question. -/
def ReplaceError.cause : ReplaceError → FileError
  | .draft _ e => e
  | .place e => e

/-- The text of a replacement error. -/
def ReplaceError.message : ReplaceError → String
  | .draft path e => s!"{e.message} at path {Text.quote path}"
  | .place e => e.message

/-- Actions that can use files. A draft is a file under a name that nothing else has; it is known by its
path. -/
class Files (m : Type → Type) where
  read (path : String) : m (Except FileError String)
  /-- Makes an empty draft in a directory. -/
  createDraft (directory : String) : m (Except ReplaceError String)
  /-- Writes a text into an empty draft. -/
  writeDraft (draft content : String) : m (Except FileError Unit)
  /-- Moves a draft to a path, in the place of what was there. -/
  settleDraft (draft path : String) : m (Except FileError Unit)
  /-- Does away with a draft. -/
  discardDraft (draft : String) : m Unit

namespace Files

variable {m : Type → Type} [Monad m]

/-! ## Names of drafts -/

/-- How many names there are for the drafts in a directory. -/
def draftNames : Nat := 65536

/-- The name of a draft, by its number. -/
def draftName (number : Nat) : String :=
  ".draft" ++ String.ofList (Text.Hex.digits 4 number)

/-- Makes a draft in a directory with the first name from `number` on that is not taken. `make` makes a
file, and refuses a path that leads to something. -/
def newDraft (make : String → m (Except FileError Unit)) (directory : String) :
    (tries number : Nat) → m (Except ReplaceError String)
  | 0, _ => return .error (.draft directory .alreadyExists)
  | tries + 1, number => do
    let draft := Path.join directory (draftName number)
    match ← make draft with
    | .ok () => return .ok draft
    | .error .alreadyExists => newDraft make directory tries (number + 1)
    | .error e => return .error (.draft draft e)

/-! ## Replacing texts -/

variable [Files m]

/-- Puts a text at a path, in the place of what was there. Whatever fails, the draft goes again. -/
def replace (path content : String) : m (Except ReplaceError Unit) := do
  match ← createDraft (Path.directory path) with
  | .error e => return .error e
  | .ok draft =>
    match ← writeDraft draft content with
    | .error e =>
      discardDraft draft
      return .error (.draft draft e)
    | .ok () =>
      match ← settleDraft draft path with
      | .error e =>
        discardDraft draft
        return .error (.place e)
      | .ok () => return .ok ()

/-- Puts a text at a path unless it is there already. The result is whether it had to be put. -/
def update (path content : String) : m (Except ReplaceError Bool) := do
  match ← read path with
  | .ok present =>
    if present = content then return .ok false
    else return (← replace path content).map fun _ => true
  | .error _ => return (← replace path content).map fun _ => true

end Files

end Shorthand
