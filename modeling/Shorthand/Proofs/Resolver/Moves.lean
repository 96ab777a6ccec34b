import Shorthand.Proofs.Resolver.Agreement
import Shorthand.Proofs.Resolver.Chronicle

/-!
# The course of a resolution

A question leads back into the resolver while it is at work on other goals, and an error leaves
several of them half finished at once. All the same, what is remembered changes in two ways only
(`Memo.Moves`): a goal that was not asked for becomes pending, and a pending goal is settled once all
goals are settled that it asked for.

## Main statements

- `Matcher.follows_run`: questions whose answers lead on by moves lead on by moves.
- `Matcher.WellFormed.follows`: the memos of a resolution follow each other by moves.
- `Matcher.WellFormed.reaches_mapM`, `Matcher.WellFormed.follows_chronicleAll`: so do those of any
  calls, and those on the way to the edits of all goals.
-/

namespace Shorthand

/-! ## Moves -/

/-- The two changes of a stage: a goal that was not asked for becomes pending, and a pending goal is
settled. -/
inductive Stage.Next : Option Stage → Option Stage → Prop where
  | begins : Next none (some .pending)
  | finishes (edit : Edit) : Next (some .pending) (some (.settled edit))

namespace Memo

variable {m : Matcher} {memo memo' : Memo} {goal goal' : Goal} {screen : List Char} {edit : Edit}

/-- Whether the edit of a goal is known. -/
def Settled (memo : Memo) (goal : Goal) : Prop :=
  ∃ edit, memo.stage? goal = some (.settled edit)

/-- How a memo changes while goals are resolved. -/
inductive Moves (m : Matcher) : Memo → Memo → Prop where
  | begins {memo : Memo} {goal : Goal} :
      goal ∈ m.goals → memo.stage? goal = none → Moves m memo (memo.mark goal .pending)
  -- all goals are settled that were asked for
  | finishes {memo : Memo} {goal : Goal} {shown : List Char} {edit : Edit} :
      goal ∈ m.goals → memo.stage? goal = some .pending →
      (m.screenBefore goal).Yields (fun goal edit => m.Evaluates goal (.ok edit)) shown →
      m.attempt goal shown = .ok edit →
      (∀ goal', m.LooksUp goal goal' → memo.Settled goal') →
      Moves m memo (memo.settle goal (stripWordbreak m.alphabet.wordbreak shown) edit)

theorem stage?_congr (hindex : goal.index = goal'.index) : memo.stage? goal = memo.stage? goal' := by
  rw [stage?, stage?, hindex]

theorem stage?_settle :
    (memo.settle goal screen edit).stage? goal' =
      if goal.index = goal'.index then some (.settled edit) else memo.stage? goal' := by
  rw [settle, stage?_mark]
  rfl

/-- A move changes no stage but in one of the two ways. -/
theorem Moves.stage?_eq_or_next (h : Moves m memo memo') (goal : Goal) :
    memo'.stage? goal = memo.stage? goal ∨ Stage.Next (memo.stage? goal) (memo'.stage? goal) := by
  cases h with
  | begins _ hnone =>
    rw [stage?_mark]
    split
    -- the goal that moves, as far as a memo can tell
    case isTrue hindex =>
      rw [← stage?_congr hindex, hnone]
      exact .inr .begins
    case isFalse => exact .inl rfl
  | finishes _ hpending =>
    rw [stage?_settle]
    split
    case isTrue hindex =>
      rw [← stage?_congr hindex, hpending]
      exact .inr (.finishes _)
    case isFalse => exact .inl rfl

theorem settled_mark_iff (hnone : memo.stage? goal = none) :
    (memo.mark goal .pending).Settled goal' ↔ memo.Settled goal' := by
  rw [Settled, Settled, stage?_mark]
  split
  case isTrue hindex =>
    rw [← stage?_congr hindex, hnone]
    simp
  case isFalse => exact Iff.rfl

theorem settled_settle_iff :
    (memo.settle goal screen edit).Settled goal' ↔
      goal.index = goal'.index ∨ memo.Settled goal' := by
  rw [Settled, Settled, stage?_settle]
  split
  case isTrue hindex => simp [hindex]
  case isFalse hindex => simp [hindex]

/-- What is settled is not changed. -/
theorem Moves.stage?_eq_settled (h : Moves m memo memo')
    (hgoal : memo.stage? goal = some (.settled edit)) :
    memo'.stage? goal = some (.settled edit) := by
  have hstage := h.stage?_eq_or_next goal
  rw [hgoal] at hstage
  exact hstage.resolve_right nofun

end Memo

namespace Chronicle

variable {m : Matcher} {c c' : Chronicle} {goal : Goal}

/-- Whether a chronicle is another one after a move. -/
inductive Step (m : Matcher) : Chronicle → Chronicle → Prop where
  | move {c : Chronicle} {memo : Memo} : Memo.Moves m c.memo memo → Step m c ⟨memo, c.memos⟩

theorem settled_of_reflTransGen (h : Relation.ReflTransGen (Step m) c c')
    (hgoal : c.memo.Settled goal) : c'.memo.Settled goal := by
  induction h with
  | refl => exact hgoal
  | tail _ hstep ih =>
    obtain ⟨edit, hedit⟩ := ih
    cases hstep with
    | move hmoves => exact ⟨edit, hmoves.stage?_eq_settled hedit⟩

end Chronicle

/-! ## The course of a resolution -/

namespace Matcher

/-- Whether a computation leads on by moves and, if it succeeds, has the goals settled that it asked
for. -/
structure Follows {α : Type} (m : Matcher) (asked : Goal → Prop) (c : Chronicle)
    (out : Except ResolveError α × Chronicle) : Prop where
  reaches : Relation.ReflTransGen (Chronicle.Step m) c out.2
  settled : ∀ a, out.1 = .ok a → ∀ goal, asked goal → out.2.memo.Settled goal

variable {m : Matcher} {held : List Goal} {bound depth : Nat} {goal : Goal} {c : Chronicle}

/-- If the replies lead on by moves, so does a computation that uses them. -/
theorem follows_run {α : Type} {x : Inquiry α} (hx : x.Within m.goals)
    {reply : Goal → ChronicleM Edit}
    (hsettles : ∀ goal ∈ m.goals, ∀ c : Chronicle, c.memo.Tracks m held →
      (c.memo.unasked m.goals).length ≤ bound →
        m.Settles held bound goal (((reply goal).outcome c).1, ((reply goal).outcome c).2.memo))
    (hfollows : ∀ goal ∈ m.goals, ∀ c : Chronicle, c.memo.Tracks m held →
      (c.memo.unasked m.goals).length ≤ bound → m.Follows (· = goal) c ((reply goal).outcome c))
    (h : c.memo.Tracks m held) (hbound : (c.memo.unasked m.goals).length ≤ bound) :
    m.Follows (x.Asks fun goal edit => m.Evaluates goal (.ok edit)) c
      (ChronicleM.outcome (x.run reply) c) := by
  -- along the questions, as in `advances`
  induction x generalizing c with
  | answer a => exact ⟨.refl, fun _ _ _ hasks => by cases hasks⟩
  | ask goal next ih =>
    rw [Inquiry.run]
    have hends := hsettles goal hx.1 c h hbound
    have hfirst := hfollows goal hx.1 c h hbound
    obtain ⟨result, c', hout⟩ : ∃ result c', (reply goal).outcome c = (result, c') := ⟨_, _, rfl⟩
    cases result with
    | error e =>
      rw [hout] at hfirst
      rw [ChronicleM.outcome_bind_of_error hout]
      exact ⟨hfirst.reaches, fun _ ha => by cases ha⟩
    | ok edit =>
      rw [hout] at hends hfirst
      rw [ChronicleM.outcome_bind_of_ok hout]
      cases hends with
      | ok hedit htracks hbound =>
        have hrest := ih edit (hx.2 edit) htracks hbound
        refine ⟨hfirst.reaches.trans hrest.reaches, fun a ha goal' hasks => ?_⟩
        cases hasks with
        -- what the first question settled stays settled
        | now =>
          exact Chronicle.settled_of_reflTransGen hrest.reaches (hfirst.settled edit rfl goal rfl)
        | later hanswer hasks =>
          obtain rfl := rightUnique_evaluates hedit hanswer
          exact hrest.settled a ha goal' hasks

section

variable {reply : Goal → ChronicleM Edit} {c' : Chronicle}

theorem outcome_chronicleWorkOut_of_error {e : ResolveError}
    (h : ChronicleM.outcome ((m.screenBefore goal).run reply) (c.change (·.mark goal .pending)) =
      (.error e, c')) :
    (m.chronicleWorkOut reply goal).outcome c = (.error e, c') := by
  rw [chronicleWorkOut, ChronicleM.outcome_bind_of_ok (ChronicleM.outcome_modify ..),
    ChronicleM.outcome_bind_of_error h]

theorem outcome_chronicleWorkOut_of_ok {shown : List Char}
    (h : ChronicleM.outcome ((m.screenBefore goal).run reply) (c.change (·.mark goal .pending)) =
      (.ok shown, c')) :
    (m.chronicleWorkOut reply goal).outcome c =
      match m.attempt goal shown with
      | .error e => (.error e, c')
      | .ok edit =>
        (.ok edit, c'.change (·.settle goal (stripWordbreak m.alphabet.wordbreak shown) edit)) := by
  rw [chronicleWorkOut, ChronicleM.outcome_bind_of_ok (ChronicleM.outcome_modify ..),
    ChronicleM.outcome_bind_of_ok h]
  cases hattempt : m.attempt goal shown with
  | error e =>
    rw [ChronicleM.outcome_bind_of_error]
    exact Prod.ext hattempt rfl
  | ok edit =>
    rw [ChronicleM.outcome_bind_of_ok]
    · rfl
    · exact Prod.ext hattempt rfl

end

/-- Working out a goal that was not asked for leads on by moves, if its replay does. -/
theorem follows_chronicleWorkOut (hgoal : goal ∈ m.goals) (hnone : c.memo.stage? goal = none)
    {reply : Goal → ChronicleM Edit} {out : Except ResolveError (List Char) × Chronicle}
    (hout : ChronicleM.outcome ((m.screenBefore goal).run reply) (c.change (·.mark goal .pending)) =
      out)
    (hadvances : m.Advances (goal :: held) bound (m.screenBefore goal) (out.1, out.2.memo))
    (hfollows : m.Follows (m.LooksUp goal) (c.change (·.mark goal .pending)) out) :
    m.Follows (· = goal) c ((m.chronicleWorkOut reply goal).outcome c) := by
  have hreaches : Relation.ReflTransGen (Chronicle.Step m) c out.2 :=
    .head (.move (.begins hgoal hnone)) hfollows.reaches
  match out with
  | (.error e, c') =>
    rw [outcome_chronicleWorkOut_of_error hout]
    exact ⟨hreaches, nofun⟩
  | (.ok shown, c') =>
    rw [outcome_chronicleWorkOut_of_ok hout]
    cases hadvances with
    | ok hyields htracks =>
      cases hattempt : m.attempt goal shown with
      | error e => exact ⟨hreaches, nofun⟩
      | ok edit =>
        have hpending : c'.memo.stage? goal = some .pending :=
          (htracks.pending_iff goal hgoal).mpr (List.mem_cons_self ..)
        have hfinishes : Chronicle.Step m c'
            (c'.change (·.settle goal (stripWordbreak m.alphabet.wordbreak shown) edit)) :=
          .move (.finishes hgoal hpending hyields hattempt (hfollows.settled shown rfl))
        refine ⟨hreaches.tail hfinishes, ?_⟩
        rintro _ - _ rfl
        exact ⟨edit, Memo.stage?_mark_self⟩

namespace WellFormed

variable (hwf : m.WellFormed)
include hwf

theorem settles_chronicleUpTo (hgoal : goal ∈ m.goals) (h : c.memo.Tracks m held)
    (hbound : (c.memo.unasked m.goals).length ≤ bound) (hdepth : bound < depth) :
    m.Settles held bound goal (((m.chronicleUpTo depth goal).outcome c).1,
      ((m.chronicleUpTo depth goal).outcome c).2.memo) := by
  rw [(Chronicle.forgets_chronicleUpTo m depth goal).outcome_eq]
  exact hwf.settles hgoal h hbound hdepth

theorem advances_run_chronicleUpTo {α : Type} {x : Inquiry α} (hx : x.Within m.goals)
    (h : c.memo.Tracks m held) (hbound : (c.memo.unasked m.goals).length ≤ bound)
    (hdepth : bound < depth) :
    m.Advances held bound x ((ChronicleM.outcome (x.run (m.chronicleUpTo depth)) c).1,
      (ChronicleM.outcome (x.run (m.chronicleUpTo depth)) c).2.memo) := by
  rw [(Chronicle.forgets_run (Chronicle.forgets_chronicleUpTo m depth) x).outcome_eq]
  exact advances hx (fun _ hgoal _ h hbound => hwf.settles hgoal h hbound hdepth) h hbound

/-- The memos of a resolution follow each other by moves. -/
theorem follows (hgoal : goal ∈ m.goals) (h : c.memo.Tracks m held)
    (hbound : (c.memo.unasked m.goals).length ≤ bound) (hdepth : bound < depth) :
    m.Follows (· = goal) c ((m.chronicleUpTo depth goal).outcome c) := by
  -- on the depth, as in `WellFormed.settles`
  induction depth generalizing goal c held bound with
  | zero => exact absurd hdepth (Nat.not_lt_zero _)
  | succ depth ih =>
    rw [chronicleUpTo, ChronicleM.outcome_bind_of_ok (ChronicleM.outcome_get ..)]
    cases hstage : c.memo.stage? goal with
    | some stage =>
      cases stage with
      | pending => exact ⟨.refl, fun _ ha => by cases ha⟩
      | settled edit =>
        refine ⟨.refl, ?_⟩
        rintro _ - _ rfl
        exact ⟨edit, hstage⟩
    | none =>
      obtain ⟨bound, rfl, hlt⟩ := Memo.exists_eq_succ_of_stage? hgoal hstage hbound
      have hdepth := Nat.lt_of_succ_lt_succ hdepth
      have hwithin := hwf.within_screenBefore goal
      -- the replay starts with the goal pending
      have htracks := h.mark_pending hwf hgoal
      refine follows_chronicleWorkOut hgoal hstage rfl
        (hwf.advances_run_chronicleUpTo hwithin htracks hlt hdepth)
        (follows_run hwithin ?_ ?_ htracks hlt)
      · exact fun _ hgoal' _ h' hbound' => hwf.settles_chronicleUpTo hgoal' h' hbound' hdepth
      · exact fun _ hgoal' _ h' hbound' => ih hgoal' h' hbound' hdepth

/-- Each call leads on by moves, whatever failed before. -/
theorem reaches_mapM {calls : List Goal} (hcalls : ∀ goal ∈ calls, goal ∈ m.goals)
    (h : c.memo.Tracks m held) {out : List (Except ResolveError Edit) × Chronicle}
    (hout : (calls.mapM fun goal => (m.chronicleUpTo m.maxDepth goal).run).run c = out) :
    Relation.ReflTransGen (Chronicle.Step m) c out.2 ∧
      ∀ goal edit, (goal, .ok edit) ∈ calls.zip out.1 → out.2.memo.Settled goal := by
  induction calls generalizing c held out with
  | nil =>
    subst hout
    exact ⟨.refl, nofun⟩
  | cons goal calls ih =>
    obtain ⟨hgoal, hcalls⟩ := List.forall_mem_cons.mp hcalls
    have hlength := c.memo.length_unasked_le m.goals
    have hends := hwf.settles_chronicleUpTo hgoal h hlength m.length_goals_lt_maxDepth
    have hfirst := hwf.follows hgoal h hlength m.length_goals_lt_maxDepth
    match hrun : (m.chronicleUpTo m.maxDepth goal).outcome c with
    | (result, c₁) =>
      have hrun' : (m.chronicleUpTo m.maxDepth goal).run.run c = (result, c₁) := hrun
      rw [run_mapM_cons, hrun'] at hout
      subst hout
      rw [hrun] at hends hfirst
      obtain ⟨held', htracks⟩ := hends.exists_tracks
      obtain ⟨hreaches, hsettled⟩ := ih hcalls htracks rfl
      refine ⟨hfirst.reaches.trans hreaches, fun goal' edit hmem => ?_⟩
      rw [List.zip_cons_cons] at hmem
      rcases List.mem_cons.mp hmem with heq | hmem
      · obtain ⟨rfl, rfl⟩ := Prod.mk.inj heq
        exact Chronicle.settled_of_reflTransGen hreaches (hfirst.settled edit rfl goal' rfl)
      · exact hsettled goal' edit hmem

theorem follows_chronicleAll :
    m.Follows ((Inquiry.askAll m.goals).Asks fun goal edit => m.Evaluates goal (.ok edit)) {}
      m.chronicleAll := by
  have hdepth := m.length_goals_lt_maxDepth
  rw [chronicleAll_eq]
  refine follows_run (Inquiry.within_askAll fun _ => id) ?_ ?_ Memo.tracks_empty
    (Memo.length_unasked_le _ m.goals)
  · exact fun _ hgoal _ h hbound => hwf.settles_chronicleUpTo hgoal h hbound hdepth
  · exact fun _ hgoal _ h hbound => hwf.follows hgoal h hbound hdepth

end WellFormed

end Matcher

end Shorthand
