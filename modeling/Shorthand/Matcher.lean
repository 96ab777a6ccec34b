import Shorthand.Dictionary
import Shorthand.Trie.Basic

/-!
# Matchers

A matcher finds the rules whose contexts have just been typed. It keeps the goals of all rules in a
trie under their contexts read backwards, because the runtime compares from the latest key.
-/

namespace Shorthand

/-- What a rule is to achieve. -/
structure Goal where
  /-- The position of the rule in its dictionary. -/
  index : Nat
  /-- The keys that are typed. -/
  context : String
  /-- The text that is to stand in their place. -/
  target : String
  /-- The number of the output function that follows, or zero for none. -/
  outputFunc : Nat
deriving DecidableEq, Repr, Inhabited

/-- Why rules have no matcher. -/
inductive MatcherError where
  -- A context has a character that is not in the alphabet.
  | unknownCharacter (context : String) (character : Char)
  | duplicateContext (context : String)
deriving DecidableEq, Repr

/-- The goal of a rule. An output function character at the end of the correction is not part of
the text. -/
def Goal.ofRule (alphabet : Alphabet) (index : Nat) (r : Rule) : Goal :=
  match r.correction.toList.getLast?.bind alphabet.outputFunc? with
  | some func => ⟨index, r.context, String.ofList r.correction.toList.dropLast, func⟩
  | none => ⟨index, r.context, r.correction, 0⟩

/-- The codes of a context from its last character backwards, or the first character met on that
way that has no code. -/
def Alphabet.path (alphabet : Alphabet) (context : List Char) : Except Char (List Code) :=
  context.reverse.mapM fun c =>
    match alphabet.code? c with
    | some code => .ok code
    | none => .error c

/-- The rules of a dictionary, ready to be matched. -/
structure Matcher where
  alphabet : Alphabet
  /-- The goals in the order of the rules. -/
  goals : List Goal
  /-- The goals under their contexts read backwards. -/
  trie : Trie Goal
deriving Repr

namespace Matcher

/-- Adds a goal to a trie. -/
def addGoal (alphabet : Alphabet) (trie : Trie Goal) (goal : Goal) :
    Except MatcherError (Trie Goal) :=
  match alphabet.path goal.context.toList with
  | .error c => .error (.unknownCharacter goal.context c)
  | .ok path =>
    if (trie.get? path).isSome then .error (.duplicateContext goal.context)
    else .ok (trie.insert path goal)

/-- The matcher of a list of rules. -/
def ofRules (alphabet : Alphabet) (rules : List Rule) : Except MatcherError Matcher := do
  let goals := rules.zipIdx.map fun (r, index) => Goal.ofRule alphabet index r
  let trie ← goals.foldlM (addGoal alphabet) ∅
  return { alphabet, goals, trie }

end Matcher

/-- The text of a matcher error. -/
def MatcherError.message : MatcherError → String
  | .unknownCharacter context character =>
    s!"sequence {Text.quote context} contains {Text.quoteChar character} which has no triecode"
  | .duplicateContext context =>
    s!"sequence {Text.quote context} is already present in the trie"

end Shorthand
