import Shorthand.Resolver
import Shorthand.Table.Layout
import Shorthand.Table.Reader

/-!
# Compiled dictionaries

An artifact is what the runtime is built with: the table, the pool of outputs, and the figures that
size its buffers. `Artifact.ofRules` compiles a list of rules and `Artifact.ofText` a dictionary.

Every artifact was read back before it is handed out: its table holds the rules with their edits.
-/

namespace Shorthand

/-- A compiled dictionary. -/
structure Artifact where
  table : Table
  /-- The bytes of the outputs. -/
  pool : Array UInt8
  /-- The rules, each context once. -/
  rules : List Rule
  /-- The first of the shortest contexts. -/
  minSequence : String
  /-- The first of the longest contexts. -/
  maxSequence : String
  /-- The number of bytes of the longest output. -/
  maxOutputLength : Nat
  /-- The largest number of deletions of an edit. -/
  maxBackspaces : Nat
  magicCount : Nat
deriving Repr

/-- In what a table differs from the rules it was made of. -/
inductive Discrepancy where
  | count (found expected : Nat)
  | missing
  | backspaces
  | outputFunc
  | output
deriving DecidableEq, Repr

/-- Why a dictionary has no artifact. -/
inductive CompileError where
  | alphabet (e : AlphabetError)
  | dictionary (e : DictionaryError)
  | emptyDictionary
  | matcher (e : MatcherError)
  | resolve (e : ResolveError)
  | pool (e : PoolError)
  | layout (e : LayoutError)
  -- The table cannot be read back.
  | unreadable (e : ReadError)
  -- The table says something else about a context.
  | discrepancy (context : String) (d : Discrepancy)
deriving DecidableEq, Repr

namespace Artifact

/-- Compares what was read from a table with a goal and its edit. -/
def compare (found : Std.HashMap String Edit) (goal : Goal) (edit : Edit) :
    Except CompileError Unit :=
  match found[goal.context]? with
  | none => .error (.discrepancy goal.context .missing)
  | some stored =>
    if stored.backspaces ≠ edit.backspaces then .error (.discrepancy goal.context .backspaces)
    else if stored.outputFunc ≠ edit.outputFunc then .error (.discrepancy goal.context .outputFunc)
    else if stored.output ≠ edit.output then .error (.discrepancy goal.context .output)
    else .ok ()

/-- Reads a table back and compares it with the goals and edits it was made of. -/
def verify (m : Matcher) (edits : List Edit) (table : Table) (pool : Pool) :
    Except CompileError Unit :=
  match (Reader.mk m.alphabet table pool.data).decode with
  | .error e => .error (.unreadable e)
  | .ok stored =>
    let found := Std.HashMap.ofList (stored.map fun s => (s.context, s.edit))
    if found.size ≠ m.goals.length then
      .error (.discrepancy "" (.count found.size m.goals.length))
    else (m.goals.zip edits).forM fun (goal, edit) => compare found goal edit

/-- Compiles some rules, the first of which attain the given lengths of contexts. -/
def ofMatcher (m : Matcher) (rules : List Rule) (shortest longest : Rule) :
    LoggedExcept CompileError Artifact := do
  let edits ← m.resolveAll.mapError .resolve
  let pool ← (Pool.ofOutputs (edits.map (·.output))).mapError .pool
  let table ← ((m.edits edits).encode pool).mapError .layout
  LoggedExcept.ofExcept (verify m edits table pool)
  LoggedExcept.report (.compiled rules.length table.size pool.data.size)
  return {
    table
    pool := pool.data
    rules
    minSequence := shortest.context
    maxSequence := longest.context
    maxOutputLength := pool.maxLength
    maxBackspaces := (edits.map (·.backspaces)).foldl max 0
    magicCount := m.alphabet.magicChars.length }

/-- Compiles a list of rules. -/
def ofRules (alphabet : Alphabet) (rules : List Rule) : LoggedExcept CompileError Artifact :=
  match rules.minOn? (·.contextLength), rules.maxOn? (·.contextLength) with
  | some shortest, some longest => do
    let m ← (LoggedExcept.ofExcept (Matcher.ofRules alphabet rules)).mapError .matcher
    ofMatcher m rules shortest longest
  | _, _ => throw .emptyDictionary

/-- Compiles a dictionary. -/
def ofText (alphabet : Alphabet) (marks : Marks) (text : String) :
    LoggedExcept CompileError Artifact := do
  let rules ← (Dictionary.rules alphabet marks text).mapError .dictionary
  ofRules alphabet rules

end Artifact

/-- The text of a discrepancy. -/
def Discrepancy.message : Discrepancy → String
  | .count found expected => s!"table holds {found} sequences instead of {expected}"
  | .missing => "not found"
  | .backspaces => "backspaces differ"
  | .outputFunc => "output function differs"
  | .output => "output differs"

/-- The text of a compile error. -/
def CompileError.message : CompileError → String
  | .alphabet e => e.message
  | .dictionary e => e.message
  | .emptyDictionary => "dictionary does not contain any rules"
  | .matcher e => e.message
  | .resolve e => e.message
  | .pool e => e.message
  | .layout e => e.message
  | .unreadable e => s!"failed to read back the compiled table: {e.message}"
  | .discrepancy context d =>
    s!"compiled table does not reproduce sequence {Text.quote context}: {d.message}"

end Shorthand
