import Shorthand.Replay
import Std.Data.HashMap

/-!
# Resolving rules

The resolver answers the questions of replays with the edits of other rules, which it works out on
demand and remembers. A rule whose edit is being worked out is marked as pending, so that a question
for it is seen to lead round in a circle. A failure leaves the mark in place: whatever needs that rule
later fails too.
-/

namespace Shorthand

/-- How far the edit of a goal has been worked out. -/
inductive Stage where
  -- It is being worked out, or that failed.
  | pending
  | settled (edit : Edit)
deriving DecidableEq, Repr

/-- What the resolver remembers. -/
structure Memo where
  /-- The stages of the goals that were asked for, by their index. -/
  stages : Std.HashMap Nat Stage := ∅
  /-- The records of the goals whose edits became known, the latest first. -/
  log : List Record := []

/-- A computation of the resolver. What is remembered outlives a failure. -/
abbrev ResolveM := ExceptT ResolveError (StateM Memo)

/-- The stage of a goal, if it was asked for. -/
def Memo.stage? (memo : Memo) (goal : Goal) : Option Stage :=
  memo.stages[goal.index]?

/-- Remembers the stage of a goal. -/
def Memo.mark (memo : Memo) (goal : Goal) (stage : Stage) : Memo :=
  { memo with stages := memo.stages.insert goal.index stage }

/-- Remembers a record. -/
def Memo.report (memo : Memo) (r : Record) : Memo :=
  { memo with log := r :: memo.log }

namespace Matcher

/-- The edit of a goal that was not asked for before, where `reply` answers the questions of its
replay. -/
def workOut (m : Matcher) (reply : Goal → ResolveM Edit) (goal : Goal) : ResolveM Edit := do
  modify (·.mark goal .pending)
  let shown ← (m.screenBefore goal).run reply
  let screen := stripWordbreak m.alphabet.wordbreak shown
  let edit ← goal.edit m.alphabet.wordbreak screen
  modify fun memo =>
    (memo.report (.resolved goal.context (String.ofList screen) edit.backspaces edit.output)).mark
      goal (.settled edit)
  return edit

/-- The edit of a goal, where questions may be nested up to `depth`. With every nested question one
more goal is pending, so a depth beyond the number of goals is as good as none. -/
def resolveUpTo (m : Matcher) : (depth : Nat) → Goal → ResolveM Edit
  | 0, goal => throw (.cycle goal.context)
  | depth + 1, goal => do
    match (← get).stage? goal with
    | some (.settled edit) => return edit
    | some .pending => throw (.cycle goal.context)
    | none => m.workOut (m.resolveUpTo depth) goal

/-- How deep the questions of a replay can be nested. -/
def maxDepth (m : Matcher) : Nat := m.goals.length + 1

/-- The edit of a goal. -/
def resolve (m : Matcher) (goal : Goal) : ResolveM Edit :=
  m.resolveUpTo m.maxDepth goal

/-- Resolves some goals one after the other, whether they fail or not. -/
def resolveEach (m : Matcher) (goals : List Goal) : Logged (List (Except ResolveError Edit)) :=
  let depth := m.maxDepth
  let (results, memo) := (goals.mapM fun goal => (m.resolveUpTo depth goal).run).run {}
  ⟨results, memo.log.reverse⟩

/-- The edits of all goals, in their order. -/
def resolveAll (m : Matcher) : LoggedExcept ResolveError (List Edit) :=
  let depth := m.maxDepth
  let (result, memo) := (m.goals.mapM (m.resolveUpTo depth)).run.run {}
  ExceptT.mk ⟨result, memo.log.reverse⟩

end Matcher

end Shorthand
