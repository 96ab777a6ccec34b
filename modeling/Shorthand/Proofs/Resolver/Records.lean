import Shorthand.Proofs.Resolver.History
import Shorthand.Proofs.Resolver.Moves
import Mathlib.Data.List.Permutation

/-!
# The records of a resolver

What moves preserve, by induction on their number, holds of all that a resolver does. They take the
stages of goals on and never back (`Chronicle.Progresses`), and they write one record for each goal
that they settle, after those of the goals that it looks up (`Chronicle.Records`).

## Main statements

- `Chronicle.progresses`, `Chronicle.exists_records`: the stages and the records, whatever moves there
  were.
- `Matcher.resolves_once_in_order`: the stages and the records of any calls, and of all goals.
-/

namespace Shorthand

/-! ## Stages -/

namespace Chronicle

variable {m : Matcher} {c c' : Chronicle}

/-- Whether the stages of all goals only move on from where no goal was asked for. -/
structure Progresses (c : Chronicle) : Prop where
  starts : c.memos.getLast? = some {}
  /-- From one memo to the next, a stage stays or is the next one. -/
  moves : ∀ goal, c.memos.IsChain fun later earlier =>
    later.stage? goal = earlier.stage? goal ∨ Stage.Next (earlier.stage? goal) (later.stage? goal)
  /-- What is settled is never changed. -/
  keeps : ∀ goal edit, c.memos.Pairwise fun later earlier =>
    earlier.stage? goal = some (.settled edit) → later.stage? goal = some (.settled edit)

theorem Progresses.step (h : c.Progresses) (hstep : Step m c c') : c'.Progresses := by
  cases hstep with
  | move hmoves =>
    refine ⟨h.starts, fun goal => ?_, fun goal edit => ?_⟩
    · exact List.isChain_cons_cons.mpr ⟨hmoves.stage?_eq_or_next goal, h.moves goal⟩
    · refine List.pairwise_cons.mpr ⟨fun earlier hmem hgoal => ?_, h.keeps goal edit⟩
      obtain ⟨hlast, -⟩ := List.pairwise_cons.mp (h.keeps goal edit)
      rcases List.mem_cons.mp hmem with rfl | hmem
      · exact hmoves.stage?_eq_settled hgoal
      · exact hmoves.stage?_eq_settled (hlast earlier hmem hgoal)

theorem progresses (h : Relation.ReflTransGen (Step m) {} c) : c.Progresses := by
  induction h with
  | refl => exact ⟨rfl, fun _ => .singleton _, fun _ _ => List.pairwise_singleton ..⟩
  | tail _ hstep ih => exact ih.step hstep

end Chronicle

/-! ## Records -/

/-- Whether a record has what the replay of a goal shows and the edit of the goal. -/
def Matcher.Reports (m : Matcher) (goal : Goal) (r : Record) : Prop :=
  ∃ shown edit, (m.screenBefore goal).Yields (fun goal edit => m.Evaluates goal (.ok edit)) shown ∧
    m.fresh goal = .ok edit ∧
    r = .resolved goal.context (String.ofList (stripWordbreak m.alphabet.wordbreak shown))
      edit.backspaces edit.output

namespace Chronicle

variable {m : Matcher} {c : Chronicle} {finished : List Goal} {goal : Goal}

/-- Whether the log has the records of the goals `finished`, the latest first in both, and these are
the goals that are settled. -/
structure Records (m : Matcher) (c : Chronicle) (finished : List Goal) : Prop where
  /-- Those that failed are still pending. -/
  mem_iff : ∀ goal, goal ∈ finished ↔ goal ∈ m.goals ∧ c.memo.Settled goal
  reports : List.Forall₂ m.Reports finished c.memo.log
  /-- No goal has two records. -/
  distinct : (finished.map (·.context)).Nodup
  /-- What a goal looks up has its record before it. -/
  order : ∀ later goal earlier, finished = later ++ goal :: earlier →
    ∀ goal', m.LooksUp goal goal' → goal' ∈ earlier

theorem records_empty : Records m {} [] where
  mem_iff goal := by simp [Memo.Settled, Memo.stage?_empty]
  reports := .nil
  distinct := List.nodup_nil
  order _ _ _ heq := by simp at heq

namespace Records

variable (h : c.Records m finished)
include h

/-- There is nothing to record when a goal becomes pending. -/
theorem begins (hnone : c.memo.stage? goal = none) (past : List Memo) :
    Records m ⟨c.memo.mark goal .pending, past⟩ finished where
  mem_iff goal' := by rw [h.mem_iff, Memo.settled_mark_iff hnone]
  reports := h.reports
  distinct := h.distinct
  order := h.order

/-- A goal gets its one record when it is settled. -/
theorem finishes (hwf : m.WellFormed) (hgoal : goal ∈ m.goals)
    (hpending : c.memo.stage? goal = some .pending) {shown : List Char} {edit : Edit}
    (hyields : (m.screenBefore goal).Yields (fun goal edit => m.Evaluates goal (.ok edit)) shown)
    (hattempt : m.attempt goal shown = .ok edit)
    (hasked : ∀ goal', m.LooksUp goal goal' → c.memo.Settled goal') (past : List Memo) :
    Records m ⟨c.memo.settle goal (stripWordbreak m.alphabet.wordbreak shown) edit, past⟩
      (goal :: finished) where
  mem_iff goal' := by
    rw [List.mem_cons, h.mem_iff, Memo.settled_settle_iff]
    constructor
    · rintro (rfl | ⟨hgoal', hsettled⟩)
      · exact ⟨hgoal, .inl rfl⟩
      · exact ⟨hgoal', .inr hsettled⟩
    · rintro ⟨hgoal', hindex | hsettled⟩
      · exact .inl (hwf.eq_of_index_eq hgoal' hgoal hindex.symm)
      · exact .inr ⟨hgoal', hsettled⟩
  reports := by
    have hedit := Matcher.evaluates_ok_iff.mpr ⟨shown, hyields, hattempt⟩
    exact .cons ⟨shown, edit, hyields, (hwf.fresh_eq_ok_iff hgoal).mpr hedit, rfl⟩ h.reports
  distinct := by
    rw [List.map_cons, List.nodup_cons]
    refine ⟨fun hmem => ?_, h.distinct⟩
    obtain ⟨goal', hmem, hcontext⟩ := List.mem_map.mp hmem
    obtain ⟨hgoal', edit', hsettled⟩ := (h.mem_iff goal').mp hmem
    obtain rfl := List.inj_on_of_nodup_map hwf.nodup_context hgoal' hgoal hcontext
    -- it is pending, and not settled
    rw [hpending] at hsettled
    cases hsettled
  order later first earlier heq goal' hlooks := by
    cases later with
    | nil =>
      obtain ⟨rfl, rfl⟩ := List.cons.inj heq
      have hgoal' := (hwf.within_screenBefore goal).mem_of_asks hlooks
      exact (h.mem_iff goal').mpr ⟨hgoal', hasked goal' hlooks⟩
    | cons last later => exact h.order later first earlier (List.cons.inj heq).2 goal' hlooks

theorem exists_fresh (hgoal : goal ∈ finished) : ∃ edit, m.fresh goal = .ok edit := by
  obtain ⟨r, -, shown, edit, -, hedit, -⟩ := exists_mem_of_forall₂ h.reports.flip hgoal
  exact ⟨edit, hedit⟩

end Records

/-- Whatever moves there were, the records are in order. -/
theorem exists_records (hwf : m.WellFormed) (h : Relation.ReflTransGen (Step m) {} c) :
    ∃ finished, c.Records m finished := by
  induction h with
  | refl => exact ⟨[], records_empty⟩
  | tail _ hstep ih =>
    obtain ⟨finished, h⟩ := ih
    cases hstep with
    | move hmoves =>
      cases hmoves with
      | begins _ hnone => exact ⟨finished, h.begins hnone _⟩
      | @finishes goal _ _ hgoal hpending hyields hattempt hasked =>
        exact ⟨goal :: finished, h.finishes hwf hgoal hpending hyields hattempt hasked _⟩

end Chronicle

namespace Matcher

variable {m : Matcher}

namespace WellFormed

variable (hwf : m.WellFormed) {finished : List Goal}
include hwf

/-- The goals of the calls that succeed have records, and those of the calls that fail have none. -/
theorem forall₂_mem_finished {calls : List Goal} (hcalls : ∀ goal ∈ calls, goal ∈ m.goals)
    (h : (m.chronicleEach calls).2.Records m finished) :
    List.Forall₂ (fun goal result => goal ∈ finished ↔ ∃ edit, result = .ok edit) calls
      (m.resolveEach calls).value := by
  have hanswers := hwf.forall₂_answers hcalls Memo.tracks_empty stuck_nil
  rw [← value_resolveEach] at hanswers
  obtain ⟨-, hsettled⟩ := hwf.reaches_mapM (c := {}) hcalls Memo.tracks_empty rfl
  refine List.forall₂_iff_zip.mpr ⟨hanswers.length_eq, fun {goal result} hmem => ?_⟩
  constructor
  · intro hgoal
    obtain ⟨edit, hedit⟩ := h.exists_fresh hgoal
    exact ⟨edit, (List.forall₂_zip hanswers hmem edit).mpr hedit⟩
  · rintro ⟨edit, rfl⟩
    rw [resolveEach_eq] at hmem
    exact (h.mem_iff goal).mpr ⟨hcalls goal (List.of_mem_zip hmem).1, hsettled goal edit hmem⟩

/-- Where all goals are resolved, all of them have records. -/
theorem perm_finished {edits : List Edit} (hedits : m.resolveAll.result = .ok edits)
    (h : m.chronicleAll.2.Records m finished) : finished.Perm m.goals := by
  have hok : m.chronicleAll.1 = .ok edits := by
    rw [← hedits, LoggedExcept.result, run_resolveAll_eq]
  rw [hwf.result_resolveAll] at hedits
  have hevaluates : ∀ goal ∈ m.goals, ∃ edit, m.Evaluates goal (.ok edit) := fun goal hgoal => by
    obtain ⟨edit, hedit⟩ := exists_mapM_eq_ok_iff.mp ⟨edits, hedits⟩ goal hgoal
    exact ⟨edit, (hwf.fresh_eq_ok_iff hgoal).mp hedit⟩
  refine (List.perm_ext_iff_of_nodup h.distinct.of_map hwf.nodup_context.of_map).mpr fun goal => ?_
  rw [h.mem_iff, and_iff_left_iff_imp]
  exact fun hgoal => hwf.follows_chronicleAll.settled edits hok goal
    (Inquiry.asks_askAll hevaluates goal hgoal)

end WellFormed

/-- Every goal is worked out once at most, and after the goals that it looks up. In any sequence of
calls of a resolver, and where it resolves all goals, the stage of a goal only moves on, and what is
settled is never changed. There is one record for each goal that is settled, after those of all goals
that it looks up, and there are no others: one for the goal of each call that succeeds and none for the
goal of one that fails, and one for every goal where all of them are resolved. -/
theorem resolves_once_in_order {alphabet : Alphabet} {rules : List Rule}
    (hrules : ofRules alphabet rules = .ok m) :
    (∀ calls, (∀ goal ∈ calls, goal ∈ m.goals) → ∃ c finished,
      m.chronicleEach calls = ((m.resolveEach calls).value, c) ∧
      (m.resolveEach calls).log = c.memo.log.reverse ∧
      c.Progresses ∧ c.Records m finished ∧
      List.Forall₂ (fun goal result => goal ∈ finished ↔ ∃ edit, result = .ok edit) calls
        (m.resolveEach calls).value) ∧
    ∃ c finished, m.chronicleAll = (m.resolveAll.result, c) ∧
      m.resolveAll.log = c.memo.log.reverse ∧ c.Progresses ∧ c.Records m finished ∧
      ∀ edits, m.resolveAll.result = .ok edits → finished.Perm m.goals := by
  have hwf := wellFormed_of_ofRules hrules
  refine ⟨fun calls hcalls => ?_, ?_⟩
  · obtain ⟨hreaches, -⟩ := hwf.reaches_mapM (c := {}) hcalls Memo.tracks_empty rfl
    obtain ⟨finished, hrecords⟩ := Chronicle.exists_records hwf hreaches
    refine ⟨(m.chronicleEach calls).2, finished, ?_, ?_, Chronicle.progresses hreaches, hrecords,
      hwf.forall₂_mem_finished hcalls hrecords⟩
    · rw [resolveEach_eq]
    · rw [resolveEach_eq]
  · have hreaches := hwf.follows_chronicleAll.reaches
    obtain ⟨finished, hrecords⟩ := Chronicle.exists_records hwf hreaches
    refine ⟨m.chronicleAll.2, finished, ?_, ?_, Chronicle.progresses hreaches, hrecords,
      fun _ hedits => hwf.perm_finished hedits hrecords⟩
    · rw [LoggedExcept.result, run_resolveAll_eq]
    · rw [LoggedExcept.log, run_resolveAll_eq]

/-- The first of these rules looks up the second one, whose record comes first. -/
theorem resolves_once_in_order_two_rules :
    ∃ m first second, ofRules ⟨['★'], ['☆'], ' ', by decide, by decide⟩
        [⟨1, "cd", "xy"⟩, ⟨2, "c", "x"⟩] = .ok m ∧ m.goals = [first, second] ∧
      ∃ r r', m.resolveAll.log = [r, r'] ∧ m.Reports second r ∧ m.Reports first r' := by
  obtain ⟨m, first, second, hrules, hgoals, hlooks, hfirst, hsecond⟩ : ∃ m first second,
      ofRules ⟨['★'], ['☆'], ' ', by decide, by decide⟩
          [⟨1, "cd", "xy"⟩, ⟨2, "c", "x"⟩] = .ok m ∧ m.goals = [first, second] ∧
        m.LooksUp first second ∧ (m.evaluateUpTo 2 first).run = some (.ok ⟨0, 0, "y"⟩) ∧
        (m.evaluateUpTo 1 second).run = some (.ok ⟨0, 0, "x"⟩) :=
    ⟨_, _, _, rfl, rfl, by exact .now _ _, rfl, rfl⟩
  have hwf := wellFormed_of_ofRules hrules
  obtain ⟨edits, hedits⟩ : ∃ edits, m.resolveAll.result = .ok edits := by
    rw [hwf.result_resolveAll, hgoals]
    refine exists_mapM_eq_ok_iff.mpr
      (List.forall_mem_cons.mpr ⟨?_, List.forall_mem_singleton.mpr ?_⟩)
    · exact ⟨_, (hwf.fresh_eq_ok_iff (by simp [hgoals])).mpr ⟨2, hfirst⟩⟩
    · exact ⟨_, (hwf.fresh_eq_ok_iff (by simp [hgoals])).mpr ⟨1, hsecond⟩⟩
  obtain ⟨-, c, finished, -, hlog, -, hrecords, hperm⟩ := resolves_once_in_order hrules
  refine ⟨m, first, second, hrules, hgoals, ?_⟩
  have hfinished := hperm edits hedits
  rw [hgoals, List.perm_pair] at hfinished
  have hreports := hrecords.reports
  rcases hfinished with rfl | rfl
  · obtain ⟨r', log, hr', hrest, hcons⟩ := List.forall₂_cons_left_iff.mp hreports
    obtain ⟨r, log, hr, hnil, rfl⟩ := List.forall₂_cons_left_iff.mp hrest
    obtain rfl := List.forall₂_nil_left_iff.mp hnil
    exact ⟨r, r', by rw [hlog, hcons]; rfl, hr, hr'⟩
  -- the latest one first, this would be the wrong order
  · exact nomatch hrecords.order [second] first [] rfl second hlooks

end Matcher

end Shorthand
