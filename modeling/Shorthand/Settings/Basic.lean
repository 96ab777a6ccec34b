import Shorthand.Artifact
import Shorthand.Files

/-!
# Settings

The settings say which characters and marks a dictionary is written with, and in which file it is.
-/

namespace Shorthand

/-- Settings as they are written down. -/
structure Settings where
  magicChars : String
  outputFuncChars : String
  /-- The word break, which has to be one character. -/
  wordbreak : String
  /-- What starts a line to be skipped. -/
  comment : String
  /-- What stands between a context and its correction. -/
  separator : String
  /-- The path of the dictionary, as seen from the directory of the settings. -/
  rulesFile : String
deriving DecidableEq, Repr

namespace Settings

/-- A setting. -/
inductive Field where
  | magicChars
  | outputFuncChars
  | wordbreak
  | comment
  | separator
  | rulesFile
deriving DecidableEq, Repr

namespace Field

/-- The settings in their order. -/
def all : List Field :=
  [magicChars, outputFuncChars, wordbreak, comment, separator, rulesFile]

/-- The name of a setting in a settings file. -/
def key : Field → String
  | magicChars => "magic_chars"
  | outputFuncChars => "output_func_chars"
  | wordbreak => "wordbreak_char"
  | comment => "comment_str"
  | separator => "separator_str"
  | rulesFile => "rules_file_name"

/-- The setting with a name. -/
def ofKey? (key : String) : Option Field :=
  all.find? (·.key = key)

/-- What the value of a setting is called. -/
def kind : Field → String
  | rulesFile => "path string"
  | _ => "a string"

theorem mem_all (f : Field) : f ∈ all := by
  cases f <;> simp [all]

theorem ofKey?_key (f : Field) : ofKey? f.key = some f := by
  cases f <;> rfl

end Field

/-- The value of a setting. -/
def get (s : Settings) : Field → String
  | .magicChars => s.magicChars
  | .outputFuncChars => s.outputFuncChars
  | .wordbreak => s.wordbreak
  | .comment => s.comment
  | .separator => s.separator
  | .rulesFile => s.rulesFile

/-- The settings with the values that `value` gives, or the first setting without one. -/
def ofValues (value : Field → Option String) : Except Field Settings := do
  let need (f : Field) : Except Field String :=
    match value f with
    | some text => .ok text
    | none => .error f
  return {
    magicChars := ← need .magicChars
    outputFuncChars := ← need .outputFuncChars
    wordbreak := ← need .wordbreak
    comment := ← need .comment
    separator := ← need .separator
    rulesFile := ← need .rulesFile }

/-- The alphabet of the settings. -/
def alphabet (s : Settings) : Except AlphabetError Alphabet :=
  Alphabet.ofStrings s.magicChars s.outputFuncChars s.wordbreak

/-- The marks of the settings. -/
def marks (s : Settings) : Marks := ⟨s.separator, s.comment⟩

/-- The path of the dictionary, given that of the settings. -/
def rulesPath (s : Settings) (path : String) : String :=
  match Path.parent? path with
  | some directory => Path.join directory s.rulesFile
  | none => s.rulesFile

/-- Compiles the text of a dictionary. -/
def compile (s : Settings) (text : String) : LoggedExcept CompileError Artifact := do
  let alphabet ← (LoggedExcept.ofExcept s.alphabet).mapError .alphabet
  Artifact.ofText alphabet s.marks text

theorem ofValues_get (s : Settings) : ofValues (some ∘ s.get) = .ok s := by
  rfl

end Settings

end Shorthand
