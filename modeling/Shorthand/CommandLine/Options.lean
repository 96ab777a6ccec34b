import Shorthand.Text.Quoted

/-!
# Command line options

What the arguments of the program ask for. An option has a long name after two dashes and a letter
after one, and letters may share a dash. A value follows its option as the next argument, after an
equals sign, or directly after a letter.

`CommandLine.scan` cuts the arguments into options, and `CommandLine.collect` reads what comes of it
from the left, so that a request for help counts unless an argument before it is wrong in itself.
-/

namespace Shorthand.CommandLine

/-- The options of a run. -/
structure Options where
  settings : String
  output : String
  /-- The path of the dictionary, if it is not the one that the settings name. -/
  rules : Option String
  /-- Whether to report warnings and errors only. -/
  quiet : Bool
deriving DecidableEq, Repr

/-- What can be asked for. -/
inductive Request where
  | compile (o : Options)
  | help
  | version
deriving DecidableEq, Repr

/-- An option. -/
inductive Switch where
  | settings
  | output
  | rules
  | quiet
  | help
  | version
deriving DecidableEq, Repr

/-- Why arguments cannot be understood. -/
inductive UsageError where
  | unknown (text : String)
  -- An argument belongs to no option.
  | stray (text : String)
  | missingValue (s : Switch)
  -- An option has a value and takes none.
  | needlessValue (s : Switch)
  | repeated (s : Switch)
deriving DecidableEq, Repr

namespace Switch

/-- The options in their order. -/
def all : List Switch := [settings, output, rules, quiet, help, version]

/-- The long name of an option. -/
def name : Switch → String
  | settings => "config"
  | output => "output"
  | rules => "rules"
  | quiet => "quiet"
  | help => "help"
  | version => "version"

/-- The letter of an option. -/
def letter : Switch → Char
  | settings => 'c'
  | output => 'o'
  | rules => 'r'
  | quiet => 'q'
  | help => 'h'
  | version => 'V'

/-- What an option is for. -/
def purpose : Switch → String
  | settings => "Configuration file providing the alphabet, tokens and the rules file"
  | output => "Header file to generate"
  | rules => "Rules file to use instead of the one named in the configuration"
  | quiet => "Only report warnings and errors"
  | help => "Print help information"
  | version => "Print version information"

/-- Whether an option takes a value. -/
def takesValue : Switch → Bool
  | settings | output | rules => true
  | quiet | help | version => false

end Switch

/-! ## Cutting up arguments -/

/-- What an argument comes to. -/
inductive Item where
  -- An option, with its value if it has one.
  | given (s : Switch) (value : Option String)
  | wrong (e : UsageError)
deriving DecidableEq, Repr

/-- What is found in an argument, and the option that waits for its value, if there is one. -/
abbrev Scanned := List Item × Option Switch

/-- The option with a long name, given in the form `name` or `name=value`. -/
def scanName (text : List Char) : Scanned :=
  let name := String.ofList (text.takeWhile (· ≠ '='))
  match Switch.all.find? (·.name = name), text.dropWhile (· ≠ '=') with
  | none, _ => ([.wrong (.unknown (String.ofList ('-' :: '-' :: text)))], none)
  | some s, [] => if s.takesValue then ([], some s) else ([.given s none], none)
  | some s, _ :: value =>
    if s.takesValue then ([.given s (some (String.ofList value))], none)
    else ([.wrong (.needlessValue s)], none)

/-- The options with the letters after a dash. The rest of the text after an option that takes a value
is its value. -/
def scanLetters : (text : List Char) → Scanned
  | [] => ([], none)
  | c :: text =>
    match Switch.all.find? (·.letter = c) with
    | none => ([.wrong (.unknown (String.ofList ['-', c]))], none)
    | some s =>
      if s.takesValue then
        match text with
        | [] => ([], some s)
        | '=' :: value => ([.given s (some (String.ofList value))], none)
        | value => ([.given s (some (String.ofList value))], none)
      else
        let (items, waiting) := scanLetters text
        (.given s none :: items, waiting)

/-- An option that waited for a value in vain. -/
def unserved (waiting : Option Switch) : List Item :=
  waiting.toList.map fun s => .given s none

/-- What arguments come to, where an option may be `waiting` for its value. A dash with something after
it starts options, so only a lone one can be a value. After two lone dashes no argument belongs to an
option. -/
def scan : (waiting : Option Switch) → (arguments : List String) → List Item
  | waiting, [] => unserved waiting
  | waiting, argument :: later =>
    match argument.toList with
    | ['-', '-'] => unserved waiting ++ later.map fun text => .wrong (.stray text)
    | '-' :: '-' :: text =>
      let (items, next) := scanName text
      unserved waiting ++ items ++ scan next later
    | '-' :: c :: text =>
      let (items, next) := scanLetters (c :: text)
      unserved waiting ++ items ++ scan next later
    | _ =>
      match waiting with
      | some s => .given s (some argument) :: scan none later
      | none => .wrong (.stray argument) :: scan none later

/-! ## Reading options -/

/-- The path of the settings if none is given. -/
def defaultSettings : String := "sequence_transform_config.json"

/-- The path of the header if none is given. -/
def defaultOutput : String := "sequence_transform_data.h"

/-- The options of a run. Each may be given once, and those that take a value need one. -/
def Options.ofGiven (given : List (Switch × Option String)) : Except UsageError Options :=
  match given.find? fun (s, value) => s.takesValue && value.isNone with
  | some (s, _) => .error (.missingValue s)
  | none =>
    match Switch.all.find? fun s => 1 < given.countP (·.1 = s) with
    | some s => .error (.repeated s)
    | none =>
      let value (s : Switch) : Option String := (given.lookup s).join
      .ok {
        settings := (value .settings).getD defaultSettings
        output := (value .output).getD defaultOutput
        rules := value .rules
        quiet := (given.lookup .quiet).isSome }

/-- Reads what arguments come to. The options `before` it are known to be well written. A request for
help or the version counts at once. -/
def collect (before : List (Switch × Option String)) : (items : List Item) →
    Except UsageError Request
  | [] => (Options.ofGiven before.reverse).map .compile
  | .wrong e :: _ => .error e
  | .given .help _ :: _ => .ok .help
  | .given .version _ :: _ => .ok .version
  | .given s value :: later => collect ((s, value) :: before) later

/-- What the arguments of the program ask for. -/
def Request.ofArguments (arguments : List String) : Except UsageError Request :=
  collect [] (scan none arguments)

/-- The text of a usage error. -/
def UsageError.message : UsageError → String
  | unknown text | stray text =>
    s!"Found argument {Text.quote text} which is not expected"
  | missingValue s => s!"The argument --{s.name} requires a value"
  | needlessValue s => s!"The argument --{s.name} takes no value"
  | repeated s => s!"The argument --{s.name} cannot be used twice"

example : Request.ofArguments ["-qc", "a", "--output=b", "-rc"] =
    .ok (.compile ⟨"a", "b", some "c", true⟩) := by cbv

end Shorthand.CommandLine
