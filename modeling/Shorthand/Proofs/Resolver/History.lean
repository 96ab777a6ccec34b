import Shorthand.Proofs.Resolver.Agreement

/-!
# The resolver has no history

A failure leaves goals pending, and later questions run into them. They do no harm: what is pending
between two calls could not be resolved by a fresh resolver either, and it includes all that it waits for
(`Matcher.Stuck`). Every call keeps this, so by induction on the calls each of them succeeds or fails
as the first one would.

## Main statements

- `Matcher.WellFormed.exists_stuck`: what is pending after a call.
- `Matcher.resolveEach_independent`: what a resolver says in any sequence of calls.
-/

namespace Shorthand.Matcher

variable {m : Matcher} {held trail : List Goal} {goal goal' : Goal} {memo : Memo}
  {e : ResolveError}

/-! ## Goals that stay pending -/

/-- Whether no goal of a list can be resolved, and all that they wait for is in the list. -/
structure Stuck (m : Matcher) (held : List Goal) : Prop where
  /-- No goal can be resolved. -/
  not_resolvable : ∀ goal ∈ held, ¬ m.Resolvable goal
  /-- What a goal waits for is in the list. -/
  mem_of_waitsFor : ∀ goal ∈ held, ∀ goal', m.WaitsFor goal goal' → goal' ∈ held

theorem stuck_nil : m.Stuck [] :=
  ⟨List.forall_mem_nil _, List.forall_mem_nil _⟩

namespace Stuck

variable (h : m.Stuck held)
include h

theorem harmless (goal : Goal) : m.Harmless held goal :=
  fun pending hpending => .inl (h.not_resolvable pending hpending)

theorem mem_of_reflTransGen (hgoal : goal ∈ held)
    (hwaits : Relation.ReflTransGen m.WaitsFor goal goal') : goal' ∈ held := by
  induction hwaits with
  | refl => exact hgoal
  | tail _ hwaits ih => exact h.mem_of_waitsFor _ ih _ hwaits

/-- A failed call leaves goals pending that cannot be resolved, with all that they wait for. -/
theorem append (hfails : m.Fails held goal trail e) : m.Stuck (trail ++ held) where
  not_resolvable pending hpending := by
    rcases List.mem_append.mp hpending with hpending | hpending
    -- a goal that this failure left pending, or one that was pending before
    · exact hfails.not_resolvable_of_mem (h.harmless goal) hpending
    · exact h.not_resolvable pending hpending
  mem_of_waitsFor pending hpending goal' hwaits := by
    rcases List.mem_append.mp hpending with hpending | hpending
    · exact hfails.mem_of_waitsFor (h.harmless goal) hpending hwaits
    · exact List.mem_append_right _ (h.mem_of_waitsFor pending hpending goal' hwaits)

end Stuck

/-! ## Sequences of calls -/

/-- What a resolver says about some goals, one after the other. -/
def answers (m : Matcher) : Memo → List Goal → List (Except ResolveError Edit)
  | _, [] => []
  | memo, goal :: calls =>
    ((m.resolve goal).outcome memo).1 :: m.answers ((m.resolve goal).outcome memo).2 calls

theorem value_resolveEach (m : Matcher) (calls : List Goal) :
    (m.resolveEach calls).value = m.answers {} calls := by
  have hrun (memo : Memo) :
      ((calls.mapM fun goal => (m.resolve goal).run).run memo).1 = m.answers memo calls := by
    induction calls generalizing memo with
    | nil => rfl
    | cons goal calls ih =>
      rw [List.mapM_cons, answers, ← ih]
      rfl
  exact hrun {}

namespace WellFormed

variable (hwf : m.WellFormed)
include hwf

/-- Every call keeps the invariant, and a failed one leaves its goal pending. -/
theorem exists_stuck (hgoal : goal ∈ m.goals) (h : memo.Tracks m held) (hstuck : m.Stuck held) :
    ∃ held', ((m.resolve goal).outcome memo).2.Tracks m held' ∧ m.Stuck held' ∧ held ⊆ held' ∧
      ((∃ e, ((m.resolve goal).outcome memo).1 = .error e) → goal ∈ held') := by
  have hsettles := hwf.settles_resolve hgoal h
  generalize (m.resolve goal).outcome memo = out at hsettles
  cases hsettles with
  | ok _ htracks =>
    refine ⟨held, htracks, hstuck, List.Subset.refl _, ?_⟩
    rintro ⟨e, ⟨⟩⟩
  | @error trail _ _ hfails htracks =>
    exact ⟨trail ++ held, htracks, hstuck.append hfails, List.subset_append_right .., fun _ =>
      hfails.mem_append⟩

section

variable {calls : List Goal} (hcalls : ∀ goal ∈ calls, goal ∈ m.goals) (h : memo.Tracks m held)
  (hstuck : m.Stuck held)
include hcalls h hstuck

/-- Each call succeeds as it would with a fresh resolver. -/
theorem forall₂_answers :
    List.Forall₂ (fun goal result => ∀ edit, result = .ok edit ↔ m.fresh goal = .ok edit) calls
      (m.answers memo calls) := by
  induction calls generalizing memo held with
  | nil => exact .nil
  | cons goal calls ih =>
    obtain ⟨hgoal, hcalls⟩ := List.forall_mem_cons.mp hcalls
    obtain ⟨held', htracks, hstuck', -, -⟩ := hwf.exists_stuck hgoal h hstuck
    refine .cons (fun edit => ?_) (ih hcalls htracks hstuck')
    rw [hwf.outcome_eq_ok_iff hgoal h (hstuck.harmless goal), hwf.fresh_eq_ok_iff hgoal]

/-- A call for a pending goal names it as a cycle. -/
theorem answers_of_mem {x : Goal × Except ResolveError Edit}
    (hx : x ∈ calls.zip (m.answers memo calls)) (hmem : x.1 ∈ held) :
    x.2 = .error (.cycle x.1.context) := by
  induction calls generalizing memo held with
  | nil => cases hx
  | cons goal calls ih =>
    obtain ⟨hgoal, hcalls⟩ := List.forall_mem_cons.mp hcalls
    rw [answers, List.zip_cons_cons] at hx
    rcases List.mem_cons.mp hx with rfl | hx
    · exact (hwf.outcome_eq_error_iff hgoal h (hstuck.harmless goal)).mpr ⟨[], .repeated hmem⟩
    · -- pending goals stay pending
      obtain ⟨held', htracks, hstuck', hsub, -⟩ := hwf.exists_stuck hgoal h hstuck
      exact ih hcalls htracks hstuck' hx (hsub hmem)

/-- After a failed call, the goals that its goal waited for are pending. -/
theorem pairwise_answers :
    (calls.zip (m.answers memo calls)).Pairwise fun x y => (∃ e, x.2 = .error e) →
      Relation.ReflTransGen m.WaitsFor x.1 y.1 → y.2 = .error (.cycle y.1.context) := by
  induction calls generalizing memo held with
  | nil => exact .nil
  | cons goal calls ih =>
    obtain ⟨hgoal, hcalls⟩ := List.forall_mem_cons.mp hcalls
    obtain ⟨held', htracks, hstuck', -, hpending⟩ := hwf.exists_stuck hgoal h hstuck
    rw [answers, List.zip_cons_cons]
    refine .cons (fun y hy herror hwaits => ?_) (ih hcalls htracks hstuck')
    exact hwf.answers_of_mem hcalls htracks hstuck' hy
      (hstuck'.mem_of_reflTransGen (hpending herror) hwaits)

end

end WellFormed

/-- In any sequence of calls, a resolver gives the edits that fresh resolvers give. After a failed call,
every later call for its goal, or for a goal that this one waited for, names the goal called for as a
cycle. -/
theorem resolveEach_independent {alphabet : Alphabet} {rules : List Rule}
    (hrules : ofRules alphabet rules = .ok m) {calls : List Goal}
    (hcalls : ∀ goal ∈ calls, goal ∈ m.goals) :
    List.Forall₂ (fun goal result => ∀ edit, result = .ok edit ↔ m.fresh goal = .ok edit) calls
      (m.resolveEach calls).value ∧
    (calls.zip (m.resolveEach calls).value).Pairwise fun x y => (∃ e, x.2 = .error e) →
      Relation.ReflTransGen m.WaitsFor x.1 y.1 → y.2 = .error (.cycle y.1.context) := by
  have hwf := wellFormed_of_ofRules hrules
  rw [value_resolveEach]
  exact ⟨hwf.forall₂_answers hcalls Memo.tracks_empty stuck_nil,
    hwf.pairwise_answers hcalls Memo.tracks_empty stuck_nil⟩

/-- The first of these rules takes more deletions than there can be, and the second one asks for it. A
call for the second one leaves both pending. -/
theorem resolveEach_independent_two_calls :
    ∃ m first second, ofRules ⟨['★'], ['☆'], ' ', by decide, by decide⟩
        [⟨1, "abcdefghijklmnopq", "z"⟩, ⟨2, "abcdefghijklmnopqr", "z"⟩] = .ok m ∧
      m.goals = [first, second] ∧
      (m.resolveEach [second, first]).value[1]? = some (.error (.cycle "abcdefghijklmnopq")) := by
  obtain ⟨m, first, second, hrules, hgoals, hcontext, hfirst, hlooks⟩ : ∃ m first second,
      ofRules ⟨['★'], ['☆'], ' ', by decide, by decide⟩
          [⟨1, "abcdefghijklmnopq", "z"⟩, ⟨2, "abcdefghijklmnopqr", "z"⟩] = .ok m ∧
        m.goals = [first, second] ∧ first.context = "abcdefghijklmnopq" ∧
        (m.evaluateUpTo 1 first).run =
          some (.error (.tooManyBackspaces "abcdefghijklmnopq" 16)) ∧ m.LooksUp second first :=
    ⟨_, _, _, rfl, rfl, rfl, rfl, by exact .now _ _⟩
  -- one deletion too many, whatever is resolved before
  have hnot : ¬ m.Resolvable first := by
    rintro ⟨edit, hedit⟩
    cases hedit.unique ⟨1, hfirst⟩
  have hcalls : ∀ goal ∈ [second, first], goal ∈ m.goals := by simp [hgoals]
  obtain ⟨heach, hlater⟩ := resolveEach_independent hrules hcalls
  refine ⟨m, first, second, hrules, hgoals, ?_⟩
  generalize (m.resolveEach [second, first]).value = results at heach hlater
  obtain ⟨result, results, hsecond, hrest, rfl⟩ := List.forall₂_cons_left_iff.mp heach
  obtain ⟨result', results, -, hnil, rfl⟩ := List.forall₂_cons_left_iff.mp hrest
  obtain rfl := List.forall₂_nil_left_iff.mp hnil
  -- the call for the second rule fails, since its question does
  have herror : ∃ e, result = .error e := by
    cases result with
    | error e => exact ⟨e, rfl⟩
    | ok edit =>
      have hedit := ((wellFormed_of_ofRules hrules).fresh_eq_ok_iff (by simp [hgoals])).mp
        ((hsecond edit).mp rfl)
      exact absurd (hlooks.resolvable ⟨edit, hedit⟩) hnot
  obtain ⟨hcycle, -⟩ := List.pairwise_cons.mp hlater
  rw [← hcontext]
  exact congrArg some
    (hcycle (first, result') (List.mem_cons_self ..) herror (.single ⟨hlooks, hnot⟩))

end Shorthand.Matcher
