import Shorthand.Json.Token
import Shorthand.Settings.Basic
import Shorthand.Text.Position

/-!
# Settings files

Settings are written as a JSON object with a text for each setting. Its keys may be in any order, and
keys that are no settings are skipped with their values. An array of the texts in the order of the
settings will do as well.

A settings file is read in one pass over its tokens, and the first thing that is wrong counts. So
`Settings.Reading` has a state for every place where a token can be wrong in its own way.

What is asked of settings in any notation, and how they are loaded, is stated over a decoder:
`Settings.decode` is the one for JSON.
-/

namespace Shorthand.Settings

open Json

/-! ## Errors -/

/-- A value that is of another kind than expected. -/
inductive Unexpected where
  | text (s : String)
  | number (n : Number)
  | literal (l : Literal)
  | sequence
  | map

/-- Why JSON is no settings. -/
inductive Mismatch where
  | invalidType (found : Unexpected) (expected : String)
  | missing (f : Field)
  | duplicate (f : Field)
  -- An array has too few values.
  | invalidLength (n : Nat)

/-- Why settings cannot be read. -/
inductive ParseError where
  | json (flaw : Flaw)
  -- The text is JSON up to a place where it says something else than settings.
  | mismatch (m : Mismatch) (position : Text.Position)
  | emptyMark (f : Field)

/-- How a message names a value. -/
def Unexpected.message : Unexpected → String
  | text s => s!"string {Text.quote s}"
  | number (.integer n) => s!"integer `{n}`"
  | number (.floating x) => s!"floating point `{Decimal.ofFloat x}`"
  | literal (.bool b) => s!"boolean `{b}`"
  | literal .null => "null"
  | sequence => "sequence"
  | map => "map"

/-- The text of a mismatch. -/
def Mismatch.message : Mismatch → String
  | invalidType found expected => s!"invalid type: {found.message}, expected {expected}"
  | missing f => s!"missing field `{f.key}`"
  | duplicate f => s!"duplicate field `{f.key}`"
  | invalidLength n =>
    s!"invalid length {n}, expected struct Config with {Field.all.length} elements"

namespace ParseError

/-- What is wrong with the JSON, if that is it. -/
def detail? : ParseError → Option String
  | json .unfinished => some "unexpected end of the text"
  | json .malformed => some "invalid JSON"
  | mismatch m position => some s!"{m.message} at {position.message}"
  | emptyMark _ => none

/-- The text of an error. -/
def message (e : ParseError) : String :=
  match e, e.detail? with
  | _, some detail => s!"incorrect config: {detail}"
  | emptyMark f, none => s!"config value {f.key} must not be empty"
  | _, none => ""

end ParseError

/-! ## Reading -/

/-- The values of settings, the latest first. -/
abbrev Values := List (Field × String)

/-- Where the reading of settings stands. -/
inductive Reading where
  -- Before the value that is the settings.
  | start
  -- Before a key, or also before the end of the object.
  | key (values : Values) (first : Bool)
  -- After the key of a setting, before the colon.
  | colon (values : Values) (f : Field)
  | value (values : Values) (f : Field)
  -- After a key that is no setting.
  | skip (values : Values) (place : Place) (frames : List Frame)
  | memberEnd (values : Values)
  -- After the key of a setting that has a value already.
  | repeated (f : Field)
  -- Before an item of an array, or also before its end.
  | item (values : Values) (left : List Field) (first : Bool)
  | itemEnd (values : Values) (left : List Field)
  | finished (s : Settings)

/-- Why a reading ends early. A mismatch comes with the text that is left. -/
inductive Stop where
  | json (flaw : Flaw)
  | mismatch (m : Mismatch) (left : List Char)

namespace Reading

/-- Stops at a value of the wrong kind, or at what is wrong with it. -/
def refuse (l : Lexeme) (expected : String) : Stop :=
  let invalid (found : Unexpected) (left : List Char) : Stop :=
    .mismatch (.invalidType found expected) left
  match l.token with
  | .text (.ok s) _ => invalid (.text s) l.rest
  | .text (.error flaw) _ => .json flaw
  | .number (.ok n) =>
    match n.value? with
    | some n => invalid (.number n) l.rest
    | none => .json .malformed
  | .number (.error .atEnd) => .json .unfinished
  | .number (.error .invalid) => .json .malformed
  | .literal (.ok w) => invalid (.literal w) l.rest
  | .literal (.error flaw) => .json flaw
  | .openBracket => invalid .sequence l.here
  | .openBrace => invalid .map l.here
  | _ => .json .malformed

/-- Reads the value of a setting. -/
def text (f : Field) (l : Lexeme) : Except Stop String :=
  match l.token with
  | .text (.ok s) _ => .ok s
  | _ => .error (refuse l f.kind)

/-- Reads a key. -/
def ofKey (values : Values) (s : String) : Reading :=
  match Field.ofKey? s with
  | none => .skip values .colon []
  | some f => if (values.lookup f).isSome then .repeated f else .colon values f

/-- The reading after the last member of an object. -/
def ofMembers (values : Values) (l : Lexeme) : Except Stop Reading :=
  match Settings.ofValues (values.lookup ·) with
  | .ok s => .ok (.finished s)
  | .error f => .error (.mismatch (.missing f) l.rest)

/-- The reading after the last item of an array. -/
def ofItems (values : Values) (l : Lexeme) : Except Stop Reading :=
  match Settings.ofValues (values.lookup ·) with
  | .ok s => .ok (.finished s)
  | .error _ => .error (.mismatch (.invalidLength values.length) l.rest)

/-- Reads a token. -/
def step (r : Reading) (l : Lexeme) : Except Stop Reading :=
  match r, l.token with
  | start, .openBrace => .ok (.key [] true)
  | start, .openBracket => .ok (.item [] Field.all true)
  | start, _ => .error (refuse l "struct Config")
  | key values true, .closeBrace => ofMembers values l
  | key values _, .text (.ok s) _ => .ok (ofKey values s)
  | key _ _, .text (.error flaw) _ => .error (.json flaw)
  | colon values f, .colon => .ok (.value values f)
  | value values f, _ => (text f l).map fun s => .memberEnd ((f, s) :: values)
  | skip values place frames, token =>
    match skipStep place frames token with
    | .error flaw => .error (.json flaw)
    | .ok (.separator, []) => .ok (.memberEnd values)
    | .ok (place, frames) => .ok (.skip values place frames)
  | memberEnd values, .comma => .ok (.key values false)
  | memberEnd values, .closeBrace => ofMembers values l
  | repeated f, .closeBrace => .error (.mismatch (.duplicate f) l.rest)
  | repeated f, _ => .error (.mismatch (.duplicate f) l.here)
  | item values _ true, .closeBracket => ofItems values l
  | item values (f :: left) _, _ => (text f l).map fun s => .itemEnd ((f, s) :: values) left
  | itemEnd values (f :: left), .comma => .ok (.item values (f :: left) false)
  | itemEnd values _, .closeBracket => ofItems values l
  | _, _ => .error (.json .malformed)

/-- The settings, when there are no more tokens. -/
def finish : Reading → Except Stop Settings
  | finished s => .ok s
  | repeated f => .error (.mismatch (.duplicate f) [])
  | _ => .error (.json .unfinished)

end Reading

/-- The settings that a text of JSON holds. -/
def decode (text : String) : Except ParseError Settings :=
  let chars := text.toList
  match (Lexeme.all chars).foldlM Reading.step Reading.start >>= Reading.finish with
  | .error (.json flaw) => .error (.json flaw)
  | .error (.mismatch m left) => .error (.mismatch m (.before chars left))
  | .ok s => .ok s

/-- Checks that the marks are not empty. An empty comment mark would skip every line, and an empty
separator would leave no context. -/
def checkMarks (s : Settings) : Except ParseError Unit :=
  if s.comment.isEmpty then .error (.emptyMark .comment)
  else if s.separator.isEmpty then .error (.emptyMark .separator)
  else .ok ()

/-- The settings in the text of a settings file, in the notation that `decode` reads. -/
def ofTextWith (decode : String → Except ParseError Settings) (text : String) :
    Except ParseError Settings := do
  let s ← decode text
  s.checkMarks
  return s

/-- The settings in the text of a settings file. -/
def ofJson (text : String) : Except ParseError Settings :=
  ofTextWith decode text

/-! ## Settings in files -/

/-- Why settings cannot be loaded. -/
inductive LoadError where
  | file (path : String) (e : FileError)
  | content (e : ParseError)

/-- The text of an error. -/
def LoadError.message : LoadError → String
  | file path _ => s!"failed to read config file {path}"
  | content e => e.message

/-- The text of what caused an error, if it is known. -/
def LoadError.cause? : LoadError → Option String
  | file _ e => some e.message
  | content e => e.detail?

section

variable {m : Type → Type} [Monad m] [Files m]

/-- Reads the settings in a file, in the notation that `decode` reads. -/
def loadWith (decode : String → Except ParseError Settings) (path : String) :
    m (Except LoadError Settings) := do
  match ← Files.read path with
  | .error e => return .error (.file path e)
  | .ok text =>
    match ofTextWith decode text with
    | .error e => return .error (.content e)
    | .ok s => return .ok s

/-- Reads the settings in a file. -/
def load (path : String) : m (Except LoadError Settings) :=
  loadWith decode path

end

end Shorthand.Settings
