import Shorthand.Proofs.Resolver.Memo

/-!
# The resolver agrees with plain recursion

Remembering edits and refusing pending goals does not change what is found. A fresh resolver gives the
edits and the errors of the plain recursion (`Matcher.evaluateUpTo`), and it speaks of a cycle where the
plain recursion would go on for ever.

## Main statements

- `Matcher.WellFormed.outcome_eq_ok_iff`, `Matcher.WellFormed.outcome_eq_error_iff`: what a resolver
  says, whatever it was asked before.
- `Matcher.resolve_agrees`: what a fresh resolver says, for one goal and for all.
-/

namespace Shorthand.Matcher

/-- What a resolver says about a goal that is asked for nothing else before. -/
def fresh (m : Matcher) (goal : Goal) : Except ResolveError Edit :=
  ((m.resolve goal).outcome {}).1

variable {m : Matcher} {held : List Goal} {goal : Goal} {memo : Memo} {edit : Edit}
  {e : ResolveError} {context : String}

namespace WellFormed

variable (hwf : m.WellFormed)
include hwf

/-! ## A single goal -/

section

variable (hgoal : goal ∈ m.goals)
include hgoal

theorem settles_resolve (h : memo.Tracks m held) :
    m.Settles held m.goals.length goal ((m.resolve goal).outcome memo) :=
  hwf.settles hgoal h (memo.length_unasked_le m.goals) m.length_goals_lt_maxDepth

section

variable (h : memo.Tracks m held) (hheld : m.Harmless held goal)
include h hheld

/-- The resolver has an edit if the plain recursion has. -/
theorem outcome_eq_ok_iff :
    ((m.resolve goal).outcome memo).1 = .ok edit ↔ m.Evaluates goal (.ok edit) := by
  have hsettles := hwf.settles_resolve hgoal h
  generalize (m.resolve goal).outcome memo = out at hsettles
  cases hsettles with
  -- an evaluation has one result
  | ok hedit =>
    constructor
    · rintro ⟨⟩
      exact hedit
    · exact hedit.unique
  -- what fails could not be resolved
  | error hfails =>
    constructor
    · rintro ⟨⟩
    · exact fun hedit => absurd ⟨edit, hedit⟩ (hfails.not_resolvable hheld)

/-- Otherwise it fails in the one way there is. -/
theorem outcome_eq_error_iff :
    ((m.resolve goal).outcome memo).1 = .error e ↔ ∃ trail, m.Fails held goal trail e := by
  have hsettles := hwf.settles_resolve hgoal h
  generalize (m.resolve goal).outcome memo = out at hsettles
  cases hsettles with
  | ok hedit =>
    constructor
    · rintro ⟨⟩
    · rintro ⟨trail, hfails⟩
      exact absurd ⟨_, hedit⟩ (hfails.not_resolvable hheld)
  | error hfails =>
    constructor
    · rintro ⟨⟩
      exact ⟨_, hfails⟩
    · rintro ⟨trail, hfails'⟩
      exact congrArg Except.error (hfails.unique hfails' hheld).2

end

theorem fresh_eq_ok_iff : m.fresh goal = .ok edit ↔ m.Evaluates goal (.ok edit) :=
  hwf.outcome_eq_ok_iff hgoal Memo.tracks_empty harmless_nil

theorem fresh_eq_error_iff : m.fresh goal = .error e ↔ ∃ trail, m.Fails [] goal trail e :=
  hwf.outcome_eq_error_iff hgoal Memo.tracks_empty harmless_nil

theorem mem_of_reflTransGen {goal' : Goal} (h : Relation.ReflTransGen m.LooksUp goal goal') :
    goal' ∈ m.goals := by
  induction h with
  | refl => exact hgoal
  | tail _ hlooks => exact (hwf.within_screenBefore _).mem_of_asks hlooks

theorem exists_cycle_of_fresh (h : m.fresh goal = .error (.cycle context)) :
    ∃ goal' ∈ m.goals, goal'.context = context ∧ Relation.ReflTransGen m.LooksUp goal goal' ∧
      Relation.TransGen m.LooksUp goal' goal' := by
  obtain ⟨trail, hfails⟩ := (hwf.fresh_eq_error_iff hgoal).mp h
  obtain ⟨goal', hcontext, hreach, hcycle⟩ := hfails.exists_transGen (List.forall_mem_nil _)
  exact ⟨goal', hwf.mem_of_reflTransGen hgoal hreach, hcontext, hreach, hcycle⟩

/-- A fresh resolver has the errors of the plain recursion. -/
theorem fresh_eq_error_iff_evaluates (he : ∀ context, e ≠ .cycle context) :
    m.fresh goal = .error e ↔ m.Evaluates goal (.error e) := by
  constructor
  · intro h
    obtain ⟨trail, hfails⟩ := (hwf.fresh_eq_error_iff hgoal).mp h
    exact hfails.evaluates he
  · intro h
    match hfresh : m.fresh goal with
    | .ok edit => cases h.unique ((hwf.fresh_eq_ok_iff hgoal).mp hfresh)
    | .error e' =>
      obtain ⟨trail, hfails⟩ := (hwf.fresh_eq_error_iff hgoal).mp hfresh
      by_cases he' : ∀ context, e' ≠ .cycle context
      · exact (h.unique (hfails.evaluates he')).symm
      · -- the plain recursion would not end
        obtain ⟨context, hcontext⟩ := not_forall.mp he'
        rw [not_not.mp hcontext] at hfresh
        obtain ⟨goal', -, -, hreach, hcycle⟩ := hwf.exists_cycle_of_fresh hgoal hfresh
        exact absurd h (not_evaluates_of_reflTransGen hreach hcycle _)

/-- It speaks of a cycle where the plain recursion does not end. -/
theorem exists_fresh_eq_cycle_iff :
    (∃ context, m.fresh goal = .error (.cycle context)) ↔
      ∀ depth, (m.evaluateUpTo depth goal).run = none := by
  constructor
  · rintro ⟨context, h⟩ depth
    obtain ⟨goal', -, -, hreach, hcycle⟩ := hwf.exists_cycle_of_fresh hgoal h
    exact Option.eq_none_iff_forall_ne_some.mpr fun result hrun =>
      not_evaluates_of_reflTransGen hreach hcycle result ⟨depth, hrun⟩
  · intro h
    have hnot (result : Except ResolveError Edit) : ¬ m.Evaluates goal result := by
      rintro ⟨depth, hrun⟩
      rw [h depth] at hrun
      cases hrun
    -- every other outcome would be one of the plain recursion
    match hfresh : m.fresh goal with
    | .ok edit => exact absurd ((hwf.fresh_eq_ok_iff hgoal).mp hfresh) (hnot _)
    | .error (.cycle context) => exact ⟨context, rfl⟩
    | .error (.tooManyBackspaces context count) =>
      exact absurd ((hwf.fresh_eq_error_iff_evaluates hgoal (by simp)).mp hfresh) (hnot _)
    | .error (.outputTooLong context length) =>
      exact absurd ((hwf.fresh_eq_error_iff_evaluates hgoal (by simp)).mp hfresh) (hnot _)

end

/-! ## All goals -/

/-- Resolving some goals one after the other is as good as asking a fresh resolver for each. -/
theorem outcome_mapM {goals : List Goal} (hgoals : ∀ goal ∈ goals, goal ∈ m.goals)
    (h : memo.Tracks m []) :
    (ResolveM.outcome (goals.mapM m.resolve) memo).1 = goals.mapM m.fresh := by
  -- no goal is pending between two calls, as long as none has failed
  induction goals generalizing memo with
  | nil => rfl
  | cons goal goals ih =>
    obtain ⟨hgoal, hgoals⟩ := List.forall_mem_cons.mp hgoals
    have hsettles := hwf.settles_resolve hgoal h
    generalize hout : (m.resolve goal).outcome memo = out at hsettles
    rw [List.mapM_cons, List.mapM_cons]
    cases hsettles with
    | error hfails =>
      rw [ResolveM.outcome_bind_of_error hout, (hwf.fresh_eq_error_iff hgoal).mpr ⟨_, hfails⟩]
      rfl
    | @ok edit memo' hedit htracks =>
      rw [ResolveM.outcome_bind_of_ok hout, (hwf.fresh_eq_ok_iff hgoal).mpr hedit, ok_bind,
        ← ih hgoals htracks]
      match hrest : ResolveM.outcome (goals.mapM m.resolve) memo' with
      | (.error e, _) => rw [ResolveM.outcome_bind_of_error hrest]; rfl
      | (.ok edits, _) => rw [ResolveM.outcome_bind_of_ok hrest]; rfl

theorem result_resolveAll : m.resolveAll.result = m.goals.mapM m.fresh :=
  hwf.outcome_mapM (fun _ => id) Memo.tracks_empty

end WellFormed

/-- The resolver agrees with the plain recursion. A fresh resolver always comes to an end, however deep
questions may be nested. It has the edits and errors of the plain recursion and speaks of a cycle
where that does not end, and the goal it names then depends on itself. Resolving all goals gives the
edits that fresh resolvers give, or else the error for the first goal that fails. -/
theorem resolve_agrees {alphabet : Alphabet} {rules : List Rule}
    (hrules : ofRules alphabet rules = .ok m) :
    (∀ goal ∈ m.goals,
      (∀ depth, m.maxDepth ≤ depth →
        (m.resolveUpTo depth goal).outcome {} = (m.resolve goal).outcome {}) ∧
      (∀ edit, m.fresh goal = .ok edit ↔ m.Evaluates goal (.ok edit)) ∧
      (∀ e, (∀ context, e ≠ .cycle context) →
        (m.fresh goal = .error e ↔ m.Evaluates goal (.error e))) ∧
      ((∃ context, m.fresh goal = .error (.cycle context)) ↔
        ∀ depth, (m.evaluateUpTo depth goal).run = none) ∧
      ∀ context, m.fresh goal = .error (.cycle context) →
        ∃ goal' ∈ m.goals, goal'.context = context ∧ Relation.TransGen m.LooksUp goal' goal') ∧
    (∀ edits, m.resolveAll.result = .ok edits ↔
      List.Forall₂ (fun goal edit => m.fresh goal = .ok edit) m.goals edits) ∧
    ∀ e, m.resolveAll.result = .error e ↔
      ∃ before goal after, m.goals = before ++ goal :: after ∧
        (∀ goal ∈ before, ∃ edit, m.fresh goal = .ok edit) ∧ m.fresh goal = .error e := by
  have hwf := wellFormed_of_ofRules hrules
  rw [hwf.result_resolveAll]
  refine ⟨fun goal hgoal => ⟨fun depth hdepth => ?_, fun _ => hwf.fresh_eq_ok_iff hgoal,
    fun _ he => hwf.fresh_eq_error_iff_evaluates hgoal he, hwf.exists_fresh_eq_cycle_iff hgoal,
    fun context h => ?_⟩, fun _ => mapM_eq_ok_iff, fun _ => mapM_eq_error_iff⟩
  · exact hwf.outcome_eq_of_lt hgoal Memo.tracks_empty (Memo.length_unasked_le _ _) hdepth
      (Nat.lt_succ_self _)
  · obtain ⟨goal', hgoal', hcontext, -, hcycle⟩ := hwf.exists_cycle_of_fresh hgoal h
    exact ⟨goal', hgoal', hcontext, hcycle⟩

/-- The first of these rules has an edit. What it makes of the keys stands on the screen of the second
one, whose replay therefore asks for the second one itself. -/
theorem resolve_agrees_two_rules :
    ∃ m first second, ofRules ⟨['★'], ['☆'], ' ', by decide, by decide⟩
        [⟨1, "w", "wq"⟩, ⟨2, "wqq", "z"⟩] = .ok m ∧ m.goals = [first, second] ∧
      m.fresh first = .ok ⟨0, 0, "wq"⟩ ∧ ∃ context, m.fresh second = .error (.cycle context) := by
  obtain ⟨m, first, second, hrules, hgoals, hfirst, hcycle⟩ : ∃ m first second,
      ofRules ⟨['★'], ['☆'], ' ', by decide, by decide⟩
          [⟨1, "w", "wq"⟩, ⟨2, "wqq", "z"⟩] = .ok m ∧ m.goals = [first, second] ∧
        (m.evaluateUpTo 1 first).run = some (.ok ⟨0, 0, "wq"⟩) ∧ m.LooksUp second second :=
    ⟨_, _, _, rfl, rfl, rfl, by exact .later ⟨1, rfl⟩ (.now _ _)⟩
  obtain ⟨hagrees, -⟩ := resolve_agrees hrules
  obtain ⟨-, hok, -⟩ := hagrees first (by simp [hgoals])
  obtain ⟨-, -, -, hends, -⟩ := hagrees second (by simp [hgoals])
  refine ⟨m, first, second, hrules, hgoals, (hok _).mpr ⟨1, hfirst⟩, hends.mpr fun depth => ?_⟩
  rw [Option.eq_none_iff_forall_ne_some]
  intro result hrun
  exact Evaluates.not_transGen ⟨depth, hrun⟩ (.single hcycle)

end Shorthand.Matcher
