import Shorthand.CommandLine.Options
import Shorthand.Header
import Shorthand.Settings.Json

/-!
# Runs

A run loads the settings, compiles the dictionary that they name, and brings the header up to date.
The header is the last thing a run touches and the only file it writes, so a run that fails leaves all
files as they were.
-/

namespace Shorthand.CommandLine

/-- Why a run fails. -/
inductive RunError where
  | settings (e : Settings.LoadError)
  | rules (path : String) (e : FileError)
  | compile (path : String) (e : CompileError)
  | write (path : String) (e : ReplaceError)

namespace RunError

/-- What failed. -/
def message : RunError → String
  | settings e => e.message
  | rules path _ => s!"failed to read rules file {path}"
  | compile path _ => s!"failed to compile {path}"
  | write path _ => s!"failed to write {path}"

/-- Why it failed. -/
def cause? : RunError → Option String
  | settings e => e.cause?
  | rules _ e => some e.message
  | compile _ e => some e.message
  | write _ e => some e.message

/-- What the program says about it. -/
def report (e : RunError) : String :=
  let cause :=
    match e.cause? with
    | some cause => s!"\nCaused by:\n    {cause}\n"
    | none => ""
  s!"Error: {e.message}\n{cause}"

end RunError

/-- What a run has done. -/
structure Outcome where
  artifact : Artifact
  output : String
  /-- Whether the header had to be written. -/
  written : Bool

/-- What the program says about it. -/
def Outcome.notes (o : Outcome) : List String :=
  [s!"dictionary: {o.artifact.table.size} words, completions: {o.artifact.pool.size} bytes, " ++
      s!"longest sequence {Text.quote o.artifact.maxSequence}, " ++
      s!"max backspaces {o.artifact.maxBackspaces}",
    if o.written then s!"wrote {o.output}" else s!"{o.output} is up to date"]

/-- The exit code of a run. -/
def exitCode : Except RunError Outcome → UInt32
  | .ok _ => 0
  | .error _ => 1

/-- The path of the dictionary of a run. -/
def Options.rulesPath (o : Options) (s : Settings) : String :=
  o.rules.getD (s.rulesPath o.settings)

section

variable {m : Type → Type} [Monad m] [Files m]

/-- Brings a header up to date. -/
def Options.finish (o : Options) (artifact : Artifact) : m (Except RunError Outcome) := do
  match ← Files.update o.output artifact.header with
  | .error e => return .error (.write o.output e)
  | .ok written => return .ok ⟨artifact, o.output, written⟩

/-- Runs the program on settings in the notation that `decode` reads. The records of the compilation come
with the outcome. -/
def Options.runWith (decode : String → Except Settings.ParseError Settings) (o : Options) :
    m (Logged (Except RunError Outcome)) := do
  match ← Settings.loadWith decode o.settings with
  | .error e => return pure (.error (.settings e))
  | .ok settings =>
    let path := o.rulesPath settings
    match ← Files.read path with
    | .error e => return pure (.error (.rules path e))
    | .ok text =>
      let compiled := settings.compile text
      match compiled.result with
      | .error e => return ⟨.error (.compile path e), compiled.log⟩
      | .ok artifact => return ⟨← o.finish artifact, compiled.log⟩

/-- Runs the program. -/
def Options.run (o : Options) : m (Logged (Except RunError Outcome)) :=
  o.runWith Settings.decode

end

end Shorthand.CommandLine
