import Shorthand.Resolver
import Shorthand.Proofs.Outcome
import Shorthand.Proofs.Resolver.Failure

/-!
# What the resolver remembers

The memo of a resolver tracks the truth: the edits in it are those of the plain recursion, and its
pending goals are known (`Memo.Tracks`). Asked for a goal from such a memo, the resolver ends in one of
two ways (`Matcher.Settles`): with the edit that the plain recursion gives, or with a failure, and what
it remembers then still tracks the truth.

With every nested question one more goal is asked for that was not before, so the number of those bounds
the depth that the resolver needs.

## Main statements

- `Matcher.WellFormed.settles`: how the resolver ends, given enough depth.
- `Matcher.WellFormed.outcome_eq_of_lt`: more depth does not change the outcome.
-/

namespace Shorthand

/-! ## Outcomes -/

/-- The result of a computation of the resolver and what is remembered after it. -/
def ResolveM.outcome {α : Type} (x : ResolveM α) (memo : Memo) : Except ResolveError α × Memo :=
  x.run.run memo

namespace ResolveM

variable {α β : Type} {x : ResolveM α} {f : α → ResolveM β} {memo memo' : Memo} {a : α}
  {e : ResolveError}

@[simp] theorem outcome_get (memo : Memo) :
    outcome (get : ResolveM Memo) memo = (.ok memo, memo) := rfl

@[simp] theorem outcome_modify (f : Memo → Memo) (memo : Memo) :
    outcome (modify f : ResolveM Unit) memo = (.ok (), f memo) := rfl

theorem outcome_bind_of_ok (h : outcome x memo = (.ok a, memo')) :
    outcome (x >>= f) memo = (f a).outcome memo' :=
  run_bind_of_ok h

theorem outcome_bind_of_error (h : outcome x memo = (.error e, memo')) :
    outcome (x >>= f) memo = (.error e, memo') :=
  run_bind_of_error h

end ResolveM

/-! ## Tracking the truth -/

namespace Memo

variable {m : Matcher} {memo : Memo} {held held' : List Goal} {goal goal' : Goal} {stage : Stage}

theorem stage?_empty : ({} : Memo).stage? goal = none :=
  Std.HashMap.getElem?_empty

theorem stage?_mark :
    (memo.mark goal stage).stage? goal' =
      if goal.index = goal'.index then some stage else memo.stage? goal' := by
  simp only [stage?, mark, Std.HashMap.getElem?_insert, beq_iff_eq]

theorem stage?_mark_self : (memo.mark goal stage).stage? goal = some stage := by
  rw [stage?_mark, if_pos rfl]

-- stages are kept by index, and goals of a matcher have different ones
theorem stage?_mark_of_ne (hwf : m.WellFormed) (hgoal : goal ∈ m.goals) (hgoal' : goal' ∈ m.goals)
    (hne : goal ≠ goal') : (memo.mark goal stage).stage? goal' = memo.stage? goal' := by
  rw [stage?_mark, if_neg fun hindex => hne (hwf.eq_of_index_eq hgoal hgoal' hindex)]

/-- Whether the edits remembered are right and `held` has the goals that are pending. -/
structure Tracks (m : Matcher) (memo : Memo) (held : List Goal) : Prop where
  /-- The edits are those of the plain recursion. -/
  evaluates : ∀ goal ∈ m.goals, ∀ edit, memo.stage? goal = some (.settled edit) →
    m.Evaluates goal (.ok edit)
  /-- These goals are pending. -/
  pending_iff : ∀ goal ∈ m.goals, memo.stage? goal = some .pending ↔ goal ∈ held

/-- The goals that were not asked for. -/
def unasked (memo : Memo) (goals : List Goal) : List Goal :=
  goals.filter fun goal => (memo.stage? goal).isNone

theorem Tracks.report {r : Record} (h : memo.Tracks m held) : (memo.report r).Tracks m held :=
  ⟨h.evaluates, h.pending_iff⟩

theorem tracks_empty : ({} : Memo).Tracks m [] where
  evaluates goal _ edit h := by simp [stage?_empty] at h
  pending_iff goal _ := by simp [stage?_empty]

theorem length_unasked_le (memo : Memo) (goals : List Goal) :
    (memo.unasked goals).length ≤ goals.length :=
  List.length_filter_le ..

/-- A goal that was not asked for becomes pending. -/
theorem Tracks.mark_pending (hwf : m.WellFormed) (h : memo.Tracks m held) (hgoal : goal ∈ m.goals) :
    (memo.mark goal .pending).Tracks m (goal :: held) where
  evaluates goal' hgoal' edit hstage := by
    rcases eq_or_ne goal goal' with rfl | hne
    · rw [stage?_mark_self] at hstage
      cases hstage
    · rw [stage?_mark_of_ne hwf hgoal hgoal' hne] at hstage
      exact h.evaluates goal' hgoal' edit hstage
  pending_iff goal' hgoal' := by
    rcases eq_or_ne goal goal' with rfl | hne
    · simp [stage?_mark_self]
    · rw [stage?_mark_of_ne hwf hgoal hgoal' hne, h.pending_iff goal' hgoal', List.mem_cons]
      simp [hne.symm]

/-- A goal that is worked on is no longer pending once its edit is known. -/
theorem Tracks.mark_settled (hwf : m.WellFormed) (h : memo.Tracks m (goal :: held))
    (hgoal : goal ∈ m.goals) (hheld : goal ∉ held) {edit : Edit}
    (hedit : m.Evaluates goal (.ok edit)) : (memo.mark goal (.settled edit)).Tracks m held where
  evaluates goal' hgoal' edit' hstage := by
    rcases eq_or_ne goal goal' with rfl | hne
    · rw [stage?_mark_self] at hstage
      cases hstage
      exact hedit
    · rw [stage?_mark_of_ne hwf hgoal hgoal' hne] at hstage
      exact h.evaluates goal' hgoal' edit' hstage
  pending_iff goal' hgoal' := by
    rcases eq_or_ne goal goal' with rfl | hne
    · simp [stage?_mark_self, hheld]
    · rw [stage?_mark_of_ne hwf hgoal hgoal' hne, h.pending_iff goal' hgoal', List.mem_cons]
      simp [hne.symm]

theorem sublist_unasked_mark (goals : List Goal) :
    List.Sublist ((memo.mark goal stage).unasked goals) (memo.unasked goals) := by
  refine List.monotone_filter_right goals fun goal' hnone => ?_
  rw [stage?_mark] at hnone
  split at hnone
  · cases hnone
  · exact hnone

theorem length_unasked_mark_lt {goals : List Goal} (hgoal : goal ∈ goals)
    (hnone : memo.stage? goal = none) :
    ((memo.mark goal stage).unasked goals).length < (memo.unasked goals).length := by
  have hsub : List.Sublist ((memo.mark goal stage).unasked goals) (memo.unasked goals) :=
    sublist_unasked_mark goals
  refine Nat.lt_of_le_of_ne hsub.length_le fun hlength => ?_
  -- lists of one length would be the same, and the goal is in one of them only
  have hmem : goal ∈ memo.unasked goals := List.mem_filter.mpr ⟨hgoal, by rw [hnone]; rfl⟩
  rw [← hsub.eq_of_length hlength] at hmem
  simp [unasked, stage?_mark] at hmem

theorem exists_eq_succ_of_stage? {bound : Nat} {goals : List Goal} (hgoal : goal ∈ goals)
    (hnone : memo.stage? goal = none) (hbound : (memo.unasked goals).length ≤ bound) :
    ∃ n, bound = n + 1 ∧ ((memo.mark goal stage).unasked goals).length ≤ n := by
  have hlt : ((memo.mark goal stage).unasked goals).length < bound :=
    Nat.lt_of_lt_of_le (length_unasked_mark_lt hgoal hnone) hbound
  exact ⟨bound - 1, by omega, by omega⟩

end Memo

/-! ## How the resolver ends -/

namespace Matcher

/-- How a resolution may end from a memo with the pending goals `held`: with the edit that the plain
recursion gives, or with a failure. No more than `bound` goals have not been asked for afterwards. -/
inductive Settles (m : Matcher) (held : List Goal) (bound : Nat) (goal : Goal) :
    Except ResolveError Edit × Memo → Prop where
  | ok {edit : Edit} {memo : Memo} :
      m.Evaluates goal (.ok edit) → memo.Tracks m held → (memo.unasked m.goals).length ≤ bound →
      Settles m held bound goal (.ok edit, memo)
  | error {trail : List Goal} {e : ResolveError} {memo : Memo} :
      m.Fails held goal trail e → memo.Tracks m (trail ++ held) →
      Settles m held bound goal (.error e, memo)

/-- How a computation may end whose questions are resolved from such a memo. -/
inductive Advances {α : Type} (m : Matcher) (held : List Goal) (bound : Nat) (x : Inquiry α) :
    Except ResolveError α × Memo → Prop where
  -- all questions are answered
  | ok {a : α} {memo : Memo} :
      x.Yields (fun goal edit => m.Evaluates goal (.ok edit)) a → memo.Tracks m held →
      (memo.unasked m.goals).length ≤ bound → Advances m held bound x (.ok a, memo)
  -- a question fails
  | error {goal : Goal} {trail : List Goal} {e : ResolveError} {memo : Memo} :
      x.Asks (fun goal edit => m.Evaluates goal (.ok edit)) goal → m.Fails held goal trail e →
      memo.Tracks m (trail ++ held) → Advances m held bound x (.error e, memo)

variable {m : Matcher} {held : List Goal} {bound depth : Nat} {goal : Goal} {memo : Memo}

theorem Settles.exists_tracks {out : Except ResolveError Edit × Memo}
    (h : m.Settles held bound goal out) : ∃ held', out.2.Tracks m held' := by
  cases h with
  | ok _ htracks => exact ⟨_, htracks⟩
  | error _ htracks => exact ⟨_, htracks⟩

theorem length_goals_lt_maxDepth (m : Matcher) : m.goals.length < m.maxDepth :=
  Nat.lt_succ_self _

/-- If the replies are right, so is a computation that uses them. -/
theorem advances {α : Type} {x : Inquiry α} (hx : x.Within m.goals) {reply : Goal → ResolveM Edit}
    (hreply : ∀ goal ∈ m.goals, ∀ memo : Memo, memo.Tracks m held →
      (memo.unasked m.goals).length ≤ bound → m.Settles held bound goal ((reply goal).outcome memo))
    (h : memo.Tracks m held) (hbound : (memo.unasked m.goals).length ≤ bound) :
    m.Advances held bound x (ResolveM.outcome (x.run reply) memo) := by
  -- along the questions: `Tracks` and the bound hold again after every answer
  induction x generalizing memo with
  | answer a => exact .ok (.answer a) h hbound
  | ask goal next ih =>
    rw [Inquiry.run]
    have hsettles := hreply goal hx.1 memo h hbound
    generalize hout : (reply goal).outcome memo = out at hsettles
    cases hsettles with
    -- the first question fails, so nothing more is asked
    | error hfails htracks =>
      rw [ResolveM.outcome_bind_of_error hout]
      exact .error (.now goal next) hfails htracks
    | @ok edit memo' hedit htracks hbound =>
      rw [ResolveM.outcome_bind_of_ok hout]
      have hnext := ih edit (hx.2 edit) htracks hbound
      generalize ResolveM.outcome ((next edit).run reply) memo' = out' at hnext
      cases hnext with
      | ok hyields htracks hbound => exact .ok (.ask hedit hyields) htracks hbound
      | error hasks hfails htracks => exact .error (.later hedit hasks) hfails htracks

/-- Replies with the same outcomes lead to the same outcome. -/
theorem outcome_run_congr {α : Type} {x : Inquiry α} (hx : x.Within m.goals)
    {reply reply' : Goal → ResolveM Edit}
    (hreply : ∀ goal ∈ m.goals, ∀ memo : Memo, memo.Tracks m held →
      (memo.unasked m.goals).length ≤ bound → m.Settles held bound goal ((reply goal).outcome memo))
    (heq : ∀ goal ∈ m.goals, ∀ memo : Memo, memo.Tracks m held →
      (memo.unasked m.goals).length ≤ bound →
        (reply goal).outcome memo = (reply' goal).outcome memo)
    (h : memo.Tracks m held) (hbound : (memo.unasked m.goals).length ≤ bound) :
    ResolveM.outcome (x.run reply) memo = ResolveM.outcome (x.run reply') memo := by
  -- both runs see the same memo before every question, and the same answer after it
  induction x generalizing memo with
  | answer a => rfl
  | ask goal next ih =>
    rw [Inquiry.run, Inquiry.run]
    have hsettles := hreply goal hx.1 memo h hbound
    generalize hout : (reply goal).outcome memo = out at hsettles
    have hout' := (heq goal hx.1 memo h hbound).symm.trans hout
    cases hsettles with
    | error =>
      rw [ResolveM.outcome_bind_of_error hout, ResolveM.outcome_bind_of_error hout']
    | @ok edit memo' hedit htracks hbound =>
      rw [ResolveM.outcome_bind_of_ok hout, ResolveM.outcome_bind_of_ok hout']
      exact ih edit (hx.2 edit) htracks hbound

/-! ## Working out a goal -/

section

variable {reply : Goal → ResolveM Edit} {memo' : Memo}

theorem outcome_workOut_of_error {e : ResolveError}
    (h : ResolveM.outcome ((m.screenBefore goal).run reply) (memo.mark goal .pending) =
      (.error e, memo')) :
    (m.workOut reply goal).outcome memo = (.error e, memo') := by
  rw [workOut, ResolveM.outcome_bind_of_ok (ResolveM.outcome_modify ..),
    ResolveM.outcome_bind_of_error h]

theorem outcome_workOut_of_ok {shown : List Char}
    (h : ResolveM.outcome ((m.screenBefore goal).run reply) (memo.mark goal .pending) =
      (.ok shown, memo')) :
    (m.workOut reply goal).outcome memo =
      match m.attempt goal shown with
      | .error e => (.error e, memo')
      | .ok edit =>
        (.ok edit, (memo'.report (.resolved goal.context
          (String.ofList (stripWordbreak m.alphabet.wordbreak shown)) edit.backspaces
            edit.output)).mark goal (.settled edit)) := by
  rw [workOut, ResolveM.outcome_bind_of_ok (ResolveM.outcome_modify ..),
    ResolveM.outcome_bind_of_ok h]
  cases hattempt : m.attempt goal shown with
  | error e =>
    rw [ResolveM.outcome_bind_of_error]
    exact Prod.ext hattempt rfl
  | ok edit =>
    rw [ResolveM.outcome_bind_of_ok]
    · rfl
    · exact Prod.ext hattempt rfl

end

/-- Working out a goal depends on the outcome of its replay alone. -/
theorem outcome_workOut_congr {reply reply' : Goal → ResolveM Edit}
    (h : ResolveM.outcome ((m.screenBefore goal).run reply) (memo.mark goal .pending) =
      ResolveM.outcome ((m.screenBefore goal).run reply') (memo.mark goal .pending)) :
    (m.workOut reply goal).outcome memo = (m.workOut reply' goal).outcome memo := by
  match hout : ResolveM.outcome ((m.screenBefore goal).run reply) (memo.mark goal .pending) with
  | (.error e, memo') =>
    rw [outcome_workOut_of_error hout, outcome_workOut_of_error (h ▸ hout)]
  | (.ok shown, memo') => rw [outcome_workOut_of_ok hout, outcome_workOut_of_ok (h ▸ hout)]

namespace WellFormed

variable (hwf : m.WellFormed)
include hwf

/-- Working out a goal that was not asked for ends as resolutions do, if the replies are right. -/
theorem workOut_settles {reply : Goal → ResolveM Edit} (hgoal : goal ∈ m.goals)
    (hreply : ∀ goal' ∈ m.goals, ∀ memo : Memo, memo.Tracks m (goal :: held) →
      (memo.unasked m.goals).length ≤ bound →
        m.Settles (goal :: held) bound goal' ((reply goal').outcome memo))
    (h : memo.Tracks m held) (hnone : memo.stage? goal = none)
    (hbound : ((memo.mark goal .pending).unasked m.goals).length ≤ bound) :
    m.Settles held (bound + 1) goal ((m.workOut reply goal).outcome memo) := by
  have hheld : goal ∉ held := fun hmem => by
    rw [(h.pending_iff goal hgoal).mpr hmem] at hnone
    cases hnone
  -- the replay starts with the goal pending
  have hrun := advances (hwf.within_screenBefore goal) hreply (h.mark_pending hwf hgoal) hbound
  generalize hout : ResolveM.outcome ((m.screenBefore goal).run reply) _ = out at hrun
  cases hrun with
  | error hasks hfails htracks =>
    rw [outcome_workOut_of_error hout]
    exact .error (.passed hheld hasks hfails) (by simpa using htracks)
  | @ok shown memo' hyields htracks hbound =>
    rw [outcome_workOut_of_ok hout]
    cases hattempt : m.attempt goal shown with
    | error e => exact .error (.own hheld hyields hattempt) htracks
    | ok edit =>
      -- the goal is settled again, and nothing else changed
      have hedit := evaluates_ok_iff.mpr ⟨shown, hyields, hattempt⟩
      refine .ok hedit (Memo.Tracks.mark_settled hwf htracks.report hgoal hheld hedit) ?_
      exact Nat.le_succ_of_le
        (Nat.le_trans (Memo.sublist_unasked_mark m.goals).length_le hbound)

/-- The resolver ends with the edit of the plain recursion or with a failure. -/
theorem settles (hgoal : goal ∈ m.goals) (h : memo.Tracks m held)
    (hbound : (memo.unasked m.goals).length ≤ bound) (hdepth : bound < depth) :
    m.Settles held bound goal ((m.resolveUpTo depth goal).outcome memo) := by
  -- on the depth, for all memos, since a question may have changed what is remembered
  induction depth generalizing goal memo held bound with
  | zero => exact absurd hdepth (Nat.not_lt_zero _)
  | succ depth ih =>
    rw [resolveUpTo, ResolveM.outcome_bind_of_ok (ResolveM.outcome_get ..)]
    match hstage : memo.stage? goal with
    | some (.settled edit) => exact .ok (h.evaluates goal hgoal edit hstage) h hbound
    | some .pending => exact .error (.repeated ((h.pending_iff goal hgoal).mp hstage)) h
    | none =>
      -- one goal less is unasked below, and one level less is left
      obtain ⟨bound, rfl, hlt⟩ := Memo.exists_eq_succ_of_stage? hgoal hstage hbound
      exact hwf.workOut_settles hgoal (fun goal' hgoal' memo' h' hbound' =>
        ih hgoal' h' hbound' (Nat.lt_of_succ_lt_succ hdepth)) h hstage hlt

/-- More depth does not change the outcome. -/
theorem outcome_eq_of_lt {depth' : Nat} (hgoal : goal ∈ m.goals) (h : memo.Tracks m held)
    (hbound : (memo.unasked m.goals).length ≤ bound) (hdepth : bound < depth)
    (hdepth' : bound < depth') :
    (m.resolveUpTo depth goal).outcome memo = (m.resolveUpTo depth' goal).outcome memo := by
  -- as before, with both depths going down together
  induction depth generalizing goal memo held bound depth' with
  | zero => exact absurd hdepth (Nat.not_lt_zero _)
  | succ depth ih =>
    cases depth' with
    | zero => exact absurd hdepth' (Nat.not_lt_zero _)
    | succ depth' =>
      rw [resolveUpTo, resolveUpTo, ResolveM.outcome_bind_of_ok (ResolveM.outcome_get ..),
        ResolveM.outcome_bind_of_ok (ResolveM.outcome_get ..)]
      match hstage : memo.stage? goal with
      | some (.settled edit) => rfl
      | some .pending => rfl
      | none =>
        obtain ⟨bound, rfl, hlt⟩ := Memo.exists_eq_succ_of_stage? hgoal hstage hbound
        refine outcome_workOut_congr (outcome_run_congr (hwf.within_screenBefore goal)
          (fun goal' hgoal' memo' h' hbound' => hwf.settles hgoal' h' hbound' ?_)
          (fun goal' hgoal' memo' h' hbound' => ih hgoal' h' hbound' ?_ ?_)
          (h.mark_pending hwf hgoal) hlt) <;>
          omega

end WellFormed

end Matcher

end Shorthand
