import Shorthand.CommandLine.Run

/-!
# The program

Reads the arguments, runs on the files of the machine, and prints what is to be said. Nothing is
decided here.
-/

namespace Shorthand

/-- What is wrong with a file, as the system says it. -/
def FileError.ofSystem : IO.Error → FileError
  | .noFileOrDirectory .. => .notFound
  | .alreadyExists .. => .alreadyExists
  | .resourceBusy .. => .busy
  | .inappropriateType _ code text =>
    -- the two kinds differ in their number, which some calls give with its sign changed
    if code = 21 || code = -21 then .isADirectory
    else if code = 20 || code = -20 then .notADirectory
    else .other text
  | .invalidArgument path code text =>
    if code = 36 || code = -36 then .nameTooLong
    else if (path.getD "").toList.contains '\x00' then .holdsNul
    else .other text
  | e => .other (toString e)

/-- Runs an action on the files of the machine. -/
def attempt {α : Type} (action : IO α) : IO (Except FileError α) := do
  try
    return .ok (← action)
  catch e => return .error (.ofSystem e)

instance : Files IO where
  read path := do
    match ← attempt (IO.FS.readBinFile path) with
    | .error e => return .error e
    | .ok bytes =>
      match String.fromUTF8? bytes with
      | some text => return .ok text
      | none => return .error .notText
  createDraft directory :=
    -- the system sees to it that there was nothing under the name before
    let make (path : String) : IO (Except FileError Unit) :=
      attempt do discard (IO.FS.Handle.mk path .writeNew)
    Files.newDraft make directory Files.draftNames 0
  writeDraft draft content := attempt (IO.FS.writeFile draft content)
  settleDraft draft path := attempt (IO.FS.rename draft path)
  discardDraft draft := discard (attempt (IO.FS.removeFile draft))

namespace CommandLine

/-- Explains the options. -/
def helpText : String :=
  let line (s : Switch) : String := s!"    -{s.letter}, --{s.name}: {s.purpose}\n"
  "USAGE:\n    shorthand [OPTIONS]\n\nOPTIONS:\n" ++ String.join (Switch.all.map line)

/-- The version of the program. -/
def versionText : String := "shorthand 0.1.0"

/-- Runs the program with some options. The result is the exit code. -/
def perform (o : Options) : IO UInt32 := do
  let ran : Logged (Except RunError Outcome) ← o.run
  let shown : Level := if o.quiet then .warn else .info
  for r in ran.log do
    if r.level.rank ≤ shown.rank then IO.eprintln s!"{r.level.name}: {r.message}"
  match ran.value with
  | .error e => IO.eprint e.report
  | .ok outcome =>
    if !o.quiet then
      for note in outcome.notes do
        IO.eprintln s!"{Level.info.name}: {note}"
  return exitCode ran.value

/-- Does what the arguments ask for. The result is the exit code. -/
def execute (arguments : List String) : IO UInt32 := do
  match Request.ofArguments arguments with
  | .error e =>
    IO.eprintln s!"error: {e.message}"
    return 2
  | .ok .help =>
    IO.print helpText
    return 0
  | .ok .version =>
    IO.println versionText
    return 0
  | .ok (.compile o) => perform o

end CommandLine

end Shorthand

/-- The program. -/
def main (arguments : List String) : IO UInt32 :=
  Shorthand.CommandLine.execute arguments
