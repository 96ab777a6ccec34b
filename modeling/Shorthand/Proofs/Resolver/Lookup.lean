import Shorthand.Proofs.Replay.Suffix
import Shorthand.Proofs.Resolver.Agreement

/-!
# What a look-up finds

A look-up compares codes, one character after the other, and stops where the trie has no edge. What it
comes to are nevertheless the goals whose contexts end the text, all of them and nothing else, the
shortest context first. Each of them is resolved on the way, whether its edit is used or not, so one of
them that cannot be resolved spoils the look-up.

## Main statements

- `Inquiry.run_askEach_eq_mapM`: asking for goals one after the other gives the reply for the last.
- `Matcher.WellFormed.lookUp_eq`: a look-up does as fresh resolvers do for the goals that end the text.
- `Matcher.lookUp_longest`: what a look-up finds, and when it fails.
-/

namespace Shorthand

namespace Inquiry

/-- Asking for goals one after the other takes all replies and keeps the last. -/
theorem run_askEach_eq_mapM {n : Type → Type} [Monad n] [LawfulMonad n] (reply : Goal → n Edit)
    (goals : List Goal) (found : Option Edit) :
    (askEach found goals).run reply =
      (fun edits => edits.getLast?.or found) <$> goals.mapM reply := by
  induction goals generalizing found with
  | nil =>
    rw [List.mapM_nil, map_pure]
    rfl
  | cons goal goals ih =>
    rw [askEach, run, List.mapM_cons, map_bind]
    refine congrArg (reply goal >>= ·) (funext fun edit => ?_)
    rw [ih, map_bind, ← bind_pure_comp]
    refine congrArg (goals.mapM reply >>= ·) (funext fun edits => ?_)
    -- behind the first goal, its edit stands for what was found before
    rw [map_pure, List.getLast?_cons, Option.or_some, Option.some_or]

end Inquiry

theorem ResolveM.outcome_map {α β : Type} (f : α → β) (x : ResolveM α) (memo : Memo) :
    (outcome (f <$> x) memo).1 = (outcome x memo).1.map f := by
  rw [← bind_pure_comp]
  match hout : outcome x memo with
  | (.ok a, memo') =>
    rw [outcome_bind_of_ok hout]
    rfl
  | (.error e, memo') =>
    rw [outcome_bind_of_error hout]
    rfl

namespace Matcher

/-- What a resolver that was asked for nothing before finds at the end of a text. -/
def lookUp (m : Matcher) (text : List Char) : Except ResolveError (Option Edit) :=
  (ResolveM.outcome ((m.longestMatch text.reverse).run m.resolve) {}).1

variable {m : Matcher} {text : List Char}

namespace WellFormed

variable (hwf : m.WellFormed)
include hwf

/-- The candidates are the goals whose contexts end the text. -/
theorem mem_candidates_reverse_iff {goal : Goal} :
    goal ∈ m.candidates text.reverse ↔
      goal ∈ m.goals ∧ goal.context ≠ "" ∧ goal.context.toList <:+ text := by
  rw [hwf.mem_candidates_iff, List.reverse_prefix]

/-- A look-up does as fresh resolvers do for the candidates, and keeps the last edit. -/
theorem lookUp_eq :
    m.lookUp text = ((m.candidates text.reverse).mapM m.fresh).map List.getLast? := by
  have hgoals : ∀ goal ∈ m.candidates text.reverse, goal ∈ m.goals :=
    fun goal hgoal => (hwf.mem_candidates_iff.mp hgoal).1
  rw [lookUp, longestMatch_eq_askEach, Inquiry.run_askEach_eq_mapM, ResolveM.outcome_map,
    hwf.outcome_mapM hgoals Memo.tracks_empty]
  simp only [Option.or_none]

end WellFormed

/-- A look-up finds the longest goal that ends a text. The goals whose contexts, if they have any, end
the text are resolved from the shortest context to the longest, whoever replies, and the last edit is
kept. With a resolver that was asked for nothing before, nothing is found if there is no such goal;
the look-up fails if one of them does, be it the longest or not; and otherwise the edit of the longest
is found. -/
theorem lookUp_longest {alphabet : Alphabet} {rules : List Rule}
    (hrules : ofRules alphabet rules = .ok m) (text : List Char) :
    ∃ ending : List Goal,
      (∀ goal, goal ∈ ending ↔
        goal ∈ m.goals ∧ goal.context ≠ "" ∧ goal.context.toList <:+ text) ∧
      (ending.Pairwise fun g g' => g.context.length < g'.context.length) ∧
      (∀ reply : Goal → ResolveM Edit,
        (m.longestMatch text.reverse).run reply = List.getLast? <$> ending.mapM reply) ∧
      (m.lookUp text = .ok none ↔ ending = []) ∧
      ((∃ e, m.lookUp text = .error e) ↔ ∃ goal ∈ ending, ∃ e, m.fresh goal = .error e) ∧
      ∀ edit, m.lookUp text = .ok (some edit) ↔
        (∀ goal ∈ ending, ∃ edit, m.fresh goal = .ok edit) ∧
          ∃ goal ∈ ending, (∀ g ∈ ending, g.context.length ≤ goal.context.length) ∧
            m.fresh goal = .ok edit := by
  have hwf := wellFormed_of_ofRules hrules
  have hascending := hwf.pairwise_candidates text.reverse
  refine ⟨m.candidates text.reverse, fun _ => hwf.mem_candidates_reverse_iff, hascending,
    fun reply => ?_, ?_, ?_, fun edit => ?_⟩
  · rw [longestMatch_eq_askEach, Inquiry.run_askEach_eq_mapM]
    simp only [Option.or_none]
  · rw [hwf.lookUp_eq, map_getLast?_eq_none_iff]
  · rw [hwf.lookUp_eq, exists_map_eq_error_iff, exists_mapM_eq_error_iff]
  · rw [hwf.lookUp_eq, map_getLast?_eq_some_iff]
    refine and_congr_right fun _ => exists_congr fun goal => ?_
    rw [← and_assoc]
    refine and_congr_left fun _ => ⟨fun hlast => ?_, fun ⟨hgoal, hmax⟩ => ?_⟩
    · exact ⟨List.mem_of_getLast? hlast, fun g => length_le_of_getLast? hascending hlast⟩
    · exact hwf.getLast?_candidates hgoal hmax

/-- Both contexts end the text, whose first character has no code. -/
theorem lookUp_longest_two_rules :
    ∃ m, ofRules ⟨['★'], ['☆'], ' ', by decide, by decide⟩
        [⟨1, "c", "x"⟩, ⟨2, "bc", "yz"⟩] = .ok m ∧
      m.lookUp ['€', 'b', 'c'] = .ok (some ⟨1, 0, "yz"⟩) := by
  obtain ⟨m, first, second, hrules, hgoals, hcontext, hcontext', hfirst, hsecond⟩ :
      ∃ m first second, ofRules ⟨['★'], ['☆'], ' ', by decide, by decide⟩
          [⟨1, "c", "x"⟩, ⟨2, "bc", "yz"⟩] = .ok m ∧ m.goals = [first, second] ∧
        first.context = "c" ∧ second.context = "bc" ∧
        (m.evaluateUpTo 1 first).run = some (.ok ⟨0, 0, "x"⟩) ∧
        (m.evaluateUpTo 1 second).run = some (.ok ⟨1, 0, "yz"⟩) :=
    ⟨_, _, _, rfl, rfl, rfl, rfl, rfl, rfl⟩
  have hwf := wellFormed_of_ofRules hrules
  have hfresh : m.fresh first = .ok ⟨0, 0, "x"⟩ :=
    (hwf.fresh_eq_ok_iff (by simp [hgoals])).mpr ⟨1, hfirst⟩
  have hfresh' : m.fresh second = .ok ⟨1, 0, "yz"⟩ :=
    (hwf.fresh_eq_ok_iff (by simp [hgoals])).mpr ⟨1, hsecond⟩
  obtain ⟨ending, hending, -, -, -, -, hfound⟩ := lookUp_longest hrules ['€', 'b', 'c']
  refine ⟨m, hrules, (hfound _).mpr ⟨fun goal hgoal => ?_, second, ?_, fun goal hgoal => ?_, hfresh'⟩⟩
  · obtain ⟨hmem, -⟩ := (hending goal).mp hgoal
    rw [hgoals, List.mem_pair] at hmem
    rcases hmem with rfl | rfl
    · exact ⟨_, hfresh⟩
    · exact ⟨_, hfresh'⟩
  · refine (hending second).mpr ⟨by simp [hgoals], by simp [hcontext'], ?_⟩
    rw [hcontext']
    exact ⟨['€'], rfl⟩
  · obtain ⟨hmem, -⟩ := (hending goal).mp hgoal
    rw [hgoals, List.mem_pair] at hmem
    rcases hmem with rfl | rfl
    · rw [hcontext, hcontext']
      decide
    · exact Nat.le_refl _

end Matcher

end Shorthand
