import Shorthand.Proofs.Edit
import Shorthand.Proofs.Replay.Suffix
import Shorthand.Proofs.Resolver.Agreement

/-!
# Rules that fire in replays

The edit of a goal is worked out in one call of the resolver and used in others: it is replayed wherever
the context of the goal begins a longer one. Up to the trigger both replays see the same keys and the
same edits, whatever the resolver remembers (`Matcher.Shows`), so the edit meets the screen that it was
made for. Unless another rule comes first there, it fires and leaves its target.

## Main statements

- `Matcher.WellFormed.shows_of_yields`: what a replay shows does not depend on what is remembered.
- `Matcher.WellFormed.fires`: when a goal fires that is about to be completed.
- `Matcher.replay_fires`: the edit of a goal makes its target where a longer context is replayed.
-/

namespace Shorthand.Matcher

/-- `m.Shows goal keys screen`: while the edit of `goal` is worked out, the replay of `keys` ends with
`screen`, whatever is remembered and pending, and however deep questions may be nested. -/
def Shows (m : Matcher) (goal : Goal) (keys : List Char) (screen : Screen) : Prop :=
  ∀ (memo : Memo) (held : List Goal) (depth : Nat), memo.Tracks m held → m.Harmless held goal →
    m.goals.length ≤ depth →
      (ResolveM.outcome ((m.replay keys).run (m.resolveUpTo depth)) (memo.mark goal .pending)).1 =
        .ok screen

/-- `m.Fires screen goal`: the edit that fires on `screen` is that of `goal`, whatever the edits of the
goals are. -/
def Fires (m : Matcher) (screen : Screen) (goal : Goal) : Prop :=
  ∀ reply : Goal → Edit, (m.firing screen).run (m := Id) reply = some (reply goal)

variable {m : Matcher} {goal goal' : Goal} {keys rest before : List Char} {trigger : Char}
  {screen : Screen} {edit edit' : Edit}

/-- What fires is the last contender. -/
theorem fires_iff_getLast? : m.Fires screen goal ↔ (m.contenders screen).getLast? = some goal := by
  simp only [Fires, firing_eq_askEach]
  constructor
  · intro h
    cases hlast : (m.contenders screen).getLast? with
    | none =>
      rw [List.getLast?_eq_none_iff.mp hlast] at h
      cases h fun _ => default
    | some fired =>
      -- a reply that tells the goal from all others
      by_contra hne
      have hreply := h fun g => ⟨if g = goal then 0 else 1, 0, ""⟩
      rw [Inquiry.run_askEach _ hlast, if_pos rfl, if_neg fun heq => hne (congrArg some heq)] at hreply
      cases hreply
  · exact fun hlast reply => Inquiry.run_askEach reply hlast

/-! ## Screens -/

/-- The questions of a replay up to some key are questions of the whole. -/
theorem looksUp_of_asks (hkeys : keys <+: goal.context.toList.dropLast)
    (h : (m.replay keys).Asks (fun goal edit => m.Evaluates goal (.ok edit)) goal') :
    m.LooksUp goal goal' := by
  obtain ⟨rest, hrest⟩ := hkeys
  rw [LooksUp, screenBefore, ← hrest, replay_append, bind_assoc]
  exact h.bind_left _

/-- If the evaluation of a goal succeeds, its replay comes past every key. -/
theorem Resolvable.exists_yields_replay (h : m.Resolvable goal)
    (hkeys : keys <+: goal.context.toList.dropLast) :
    ∃ screen, (m.replay keys).Yields (fun goal edit => m.Evaluates goal (.ok edit)) screen := by
  obtain ⟨edit, hedit⟩ := h
  obtain ⟨shown, hyields, -⟩ := evaluates_ok_iff.mp hedit
  obtain ⟨rest, hrest⟩ := hkeys
  rw [screenBefore, ← hrest, replay_append, bind_assoc] at hyields
  obtain ⟨screen, hscreen, -⟩ := Inquiry.yields_bind_iff.mp hyields
  exact ⟨screen, hscreen⟩

/-- A goal has the edit that suits the screen at the end of its replay. -/
theorem attempt_of_yields (hedit : m.Evaluates goal (.ok edit))
    (hkeys : goal.context.toList.dropLast = keys)
    (h : (m.replay keys).Yields (fun goal edit => m.Evaluates goal (.ok edit)) screen) :
    m.attempt goal screen.shown.reverse = .ok edit := by
  obtain ⟨shown, hyields, hattempt⟩ := evaluates_ok_iff.mp hedit
  rw [screenBefore, hkeys] at hyields
  obtain ⟨screen', hscreen', hshown⟩ := Inquiry.yields_bind_iff.mp hyields
  obtain rfl := Inquiry.Yields.unique rightUnique_evaluates h hscreen'
  cases hshown
  exact hattempt

namespace WellFormed

variable (hwf : m.WellFormed)
include hwf

theorem within_replay (keys : List Char) : (m.replay keys).Within m.goals :=
  Inquiry.Within.foldlM hwf.within_press {} keys

/-- What a replay shows does not depend on what is remembered. -/
theorem shows_of_yields (hgoal : goal ∈ m.goals) (hkeys : keys <+: goal.context.toList.dropLast)
    (h : (m.replay keys).Yields (fun goal edit => m.Evaluates goal (.ok edit)) screen) :
    m.Shows goal keys screen := by
  intro memo held depth htracks hheld hdepth
  have hunasked : (memo.mark goal .pending).stage? goal = some .pending := Memo.stage?_mark_self
  -- the goal itself was asked for, so the depth is enough
  have hbound : ((memo.mark goal .pending).unasked m.goals).length < depth := by
    refine Nat.lt_of_lt_of_le (List.length_filter_lt_length_iff_exists.mpr ⟨goal, hgoal, ?_⟩) hdepth
    rw [hunasked]
    exact Bool.false_ne_true
  have hrun := advances (hwf.within_replay keys)
    (fun _ hmem _ htracks' hle => hwf.settles hmem htracks' hle hbound)
    (htracks.mark_pending hwf hgoal) (Nat.le_refl _)
  generalize ResolveM.outcome ((m.replay keys).run (m.resolveUpTo depth)) _ = out at hrun
  cases hrun with
  | ok hyields => rw [Inquiry.Yields.unique rightUnique_evaluates hyields h]
  -- every question is answered by the plain recursion, so none fails
  | error hasks hfails =>
    have hanswer := h.exists_answer (fun _ _ => id) rightUnique_evaluates hasks
    have hharmless := hheld.cons (looksUp_of_asks hkeys hasks)
    exact absurd hanswer (hfails.not_resolvable hharmless)

/-! ## Firing -/

section

variable (hgoal : goal ∈ m.goals) (hcontext : goal.context.toList = keys ++ [trigger])
  (hfree : (∀ g ∈ m.goals, g.context ≠ "" → ¬ g.context.toList <:+ before ++ [trigger]) ∨
    goal.context.toList <:+ before ++ [trigger] ∧
      ∀ g ∈ m.goals, g.context.toList <:+ before ++ [trigger] →
        g.context.length ≤ goal.context.length)
include hgoal hcontext hfree

/-- A goal whose context has just been typed is the last contender unless another one ends the text on
screen. -/
theorem getLast?_contenders :
    (m.contenders ⟨trigger :: keys.reverse, trigger :: before.reverse⟩).getLast? = some goal := by
  have hne : goal.context ≠ "" := by
    intro hempty
    rw [hempty] at hcontext
    simp at hcontext
  have hbuffer (text : List Char) (g : Goal) :
      g ∈ m.candidates (trigger :: text.reverse) ↔
        g ∈ m.goals ∧ g.context ≠ "" ∧ g.context.toList <:+ text ++ [trigger] := by
    rw [hwf.mem_candidates_iff, ← List.reverse_prefix, List.reverse_append]
    rfl
  -- the keys typed are the whole context, so no longer one ends them
  have htyped : (m.candidates (trigger :: keys.reverse)).getLast? = some goal := by
    refine hwf.getLast?_candidates ?_ fun g hg => ?_
    · exact (hbuffer keys goal).mpr ⟨hgoal, hne, by simp [hcontext]⟩
    · obtain ⟨-, -, hsuffix⟩ := (hbuffer keys g).mp hg
      rw [← hcontext] at hsuffix
      simpa only [String.length_toList] using hsuffix.length_le
  rw [contenders]
  rcases hfree with hnone | ⟨hsuffix, hmax⟩
  · have hnil : m.candidates (trigger :: before.reverse) = [] := by
      refine List.eq_nil_iff_forall_not_mem.mpr fun g hg => ?_
      obtain ⟨hg, hgne, hgsuffix⟩ := (hbuffer before g).mp hg
      exact hnone g hg hgne hgsuffix
    simp only [hnil]
    exact htyped
  · have hmem := (hbuffer before goal).mpr ⟨hgoal, hne, hsuffix⟩
    have hlast := hwf.getLast?_candidates hmem fun g hg => by
      obtain ⟨hg, -, hgsuffix⟩ := (hbuffer before g).mp hg
      exact hmax g hg hgsuffix
    cases hcandidates : m.candidates (trigger :: before.reverse) with
    | nil =>
      rw [hcandidates] at hmem
      cases hmem
    | cons g goals =>
      rw [hcandidates] at hlast
      exact hlast

/-- It fires then. -/
theorem fires : m.Fires ⟨trigger :: keys.reverse, trigger :: before.reverse⟩ goal :=
  fires_iff_getLast?.mpr (hwf.getLast?_contenders hgoal hcontext hfree)

/-- It leaves its target on the screen that its own replay ends with. -/
theorem yields_replay_append (hedit : m.Evaluates goal (.ok edit))
    (h : (m.replay keys).Yields (fun goal edit => m.Evaluates goal (.ok edit))
      ⟨keys.reverse, before.reverse⟩)
    (h' : (m.replay (keys ++ [trigger])).Yields (fun goal edit => m.Evaluates goal (.ok edit)) screen) :
    screen =
      ⟨trigger :: keys.reverse, (goal.textAfter m.alphabet.wordbreak before).reverse⟩ := by
  rw [replay_append] at h'
  obtain ⟨screen', hkeys, h'⟩ := Inquiry.yields_bind_iff.mp h'
  obtain rfl := Inquiry.Yields.unique rightUnique_evaluates h hkeys
  rw [List.foldlM_cons] at h'
  obtain ⟨_, hpress, hend⟩ := Inquiry.yields_bind_iff.mp h'
  cases hend
  obtain ⟨found, hfound, rfl⟩ := yields_press_iff.mp hpress
  rw [firing_eq_askEach] at hfound
  obtain ⟨edit', hedit', rfl⟩ :=
    hfound.exists_of_askEach (hwf.getLast?_contenders hgoal hcontext hfree)
  obtain rfl := rightUnique_evaluates hedit hedit'
  -- the edit was made for this screen
  have hattempt := attempt_of_yields hedit (by rw [hcontext, List.dropLast_concat]) h
  rw [List.reverse_reverse] at hattempt
  exact Goal.fire_of_edit hattempt

end

end WellFormed

/-- An edit makes its target wherever it is replayed. Let the context of a goal begin a longer one, and
let both goals have edits. Up to the trigger of the first one, the replays of both show the same screen.
If no context ends the text on it together with the trigger, or the longest that does is that of the first
goal, then this goal fires in the replay of the second one. On screen there is then the word break, if
the text started with it, and the target of the goal: as it is as far as it agrees with the text behind
that word break, and from there on with word breaks for spaces. -/
theorem replay_fires {alphabet : Alphabet} {rules : List Rule} (hrules : ofRules alphabet rules = .ok m)
    (hgoal : goal ∈ m.goals) (hgoal' : goal' ∈ m.goals)
    (hedit : m.fresh goal = .ok edit) (hedit' : m.fresh goal' = .ok edit')
    (hcontext : goal.context.toList = keys ++ [trigger])
    (hcontext' : goal'.context.toList = goal.context.toList ++ rest) (hrest : rest ≠ []) :
    ∃ before, m.Shows goal keys ⟨keys.reverse, before.reverse⟩ ∧
      m.Shows goal' keys ⟨keys.reverse, before.reverse⟩ ∧
      ((∀ g ∈ m.goals, g.context ≠ "" → ¬ g.context.toList <:+ before ++ [trigger]) ∨
        goal.context.toList <:+ before ++ [trigger] ∧
          (∀ g ∈ m.goals, g.context.toList <:+ before ++ [trigger] →
            g.context.length ≤ goal.context.length) →
        m.Fires ⟨trigger :: keys.reverse, trigger :: before.reverse⟩ goal ∧
        m.Shows goal' (keys ++ [trigger])
          ⟨trigger :: keys.reverse, (goal.textAfter alphabet.wordbreak before).reverse⟩) := by
  have hwf := wellFormed_of_ofRules hrules
  rw [← alphabet_of_ofRules hrules]
  have heval := (hwf.fresh_eq_ok_iff hgoal).mp hedit
  have heval' := (hwf.fresh_eq_ok_iff hgoal').mp hedit'
  -- the keys before the trigger are all that the first replay has, and the second one has more
  have hkeys : keys <+: goal.context.toList.dropLast := by simp [hcontext]
  have hlonger : keys ++ [trigger] <+: goal'.context.toList.dropLast := by
    rw [hcontext', hcontext, List.dropLast_append_of_ne_nil hrest]
    exact List.prefix_append ..
  have hkeys' := (List.prefix_append keys [trigger]).trans hlonger
  obtain ⟨⟨typed, shown⟩, hyields⟩ := Resolvable.exists_yields_replay ⟨edit', heval'⟩ hkeys'
  obtain rfl : typed = keys.reverse := typed_of_replay hyields
  obtain ⟨before, rfl⟩ : ∃ before : List Char, shown = before.reverse :=
    ⟨shown.reverse, shown.reverse_reverse.symm⟩
  refine ⟨before, hwf.shows_of_yields hgoal hkeys hyields, hwf.shows_of_yields hgoal' hkeys' hyields,
    fun hfree => ⟨hwf.fires hgoal hcontext hfree, ?_⟩⟩
  obtain ⟨screen, hscreen⟩ := Resolvable.exists_yields_replay ⟨edit', heval'⟩ hlonger
  rw [← hwf.yields_replay_append hgoal hcontext hfree heval hyields hscreen]
  exact hwf.shows_of_yields hgoal' hlonger hscreen

/-- The number sign is the word break here. The first rule leaves it on screen, and the space of its
target becomes another one. -/
theorem replay_fires_two_rules :
    ∃ m first second, ofRules ⟨['★'], ['☆'], '#', by decide, by decide⟩
        [⟨1, "#ab", "x y"⟩, ⟨2, "#abc", "z"⟩] = .ok m ∧ m.goals = [first, second] ∧
      m.Fires ⟨['b', 'a', '#'], ['b', 'a', '#']⟩ first ∧
      m.Shows second ['#', 'a', 'b'] ⟨['b', 'a', '#'], ['y', '#', 'x', '#']⟩ := by
  obtain ⟨m, first, second, hrules, hgoals, hfirst, hsecond, hcontext, hcontext', htarget, hscreen⟩ :
      ∃ m first second, ofRules ⟨['★'], ['☆'], '#', by decide, by decide⟩
          [⟨1, "#ab", "x y"⟩, ⟨2, "#abc", "z"⟩] = .ok m ∧ m.goals = [first, second] ∧
        (m.evaluateUpTo 1 first).run = some (.ok ⟨1, 0, "x y"⟩) ∧
        (m.evaluateUpTo 2 second).run = some (.ok ⟨3, 0, "z"⟩) ∧ first.context = "#ab" ∧
        second.context = "#abc" ∧ first.target = "x y" ∧
        (ResolveM.outcome ((m.replay ['#', 'a']).run (m.resolveUpTo m.goals.length))
          (Memo.mark {} first .pending)).1 = .ok ⟨['a', '#'], ['a', '#']⟩ :=
    ⟨_, _, _, rfl, rfl, rfl, rfl, rfl, rfl, rfl, rfl⟩
  have hwf := wellFormed_of_ofRules hrules
  have hmem : first ∈ m.goals := by simp [hgoals]
  have hmem' : second ∈ m.goals := by simp [hgoals]
  have hkeys : first.context.toList = ['#', 'a'] ++ ['b'] := by rw [hcontext]; rfl
  have hkeys' : second.context.toList = first.context.toList ++ ['c'] := by
    rw [hcontext, hcontext']
    rfl
  obtain ⟨before, hshows, -, hfires⟩ := replay_fires hrules hmem hmem'
    ((hwf.fresh_eq_ok_iff hmem).mpr ⟨1, hfirst⟩) ((hwf.fresh_eq_ok_iff hmem').mpr ⟨2, hsecond⟩)
    hkeys hkeys' (List.cons_ne_nil _ _)
  -- nothing fires before the trigger
  have hbefore := hscreen.symm.trans (hshows {} [] _ Memo.tracks_empty harmless_nil (Nat.le_refl _))
  obtain rfl : before = ['#', 'a'] := by
    have hreverse : ['a', '#'] = before.reverse := (Screen.mk.inj (Except.ok.inj hbefore)).2
    rw [← before.reverse_reverse, ← hreverse]
    rfl
  -- the first context is the whole text, and what ends a text is not longer
  have hmax : ∀ g ∈ m.goals, g.context.toList <:+ ['#', 'a'] ++ ['b'] →
      g.context.length ≤ first.context.length := by
    intro g _ hsuffix
    simpa only [hkeys, ← String.length_toList] using hsuffix.length_le
  obtain ⟨hfires, hshows'⟩ := hfires (.inr ⟨by simp [hkeys], hmax⟩)
  refine ⟨m, first, second, hrules, hgoals, hfires, ?_⟩
  rw [Goal.textAfter, htarget] at hshows'
  exact hshows'

end Shorthand.Matcher
