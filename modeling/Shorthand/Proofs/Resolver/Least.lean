import Shorthand.Proofs.Resolver.Firing

/-!
# Edits are the least there are

An edit keeps what the screen and the target of a goal have in common at their beginnings. No edit that
leads from the one to the other can delete less or type less, so a goal has no edit only where every edit
for it would exceed a limit of the table.

## Main statements

- `Goal.le_of_take_append`: an edit that keeps the longest common beginning is the least.
- `Matcher.outcome_resolve_of_replayed`: what a resolver says once the replay of a goal came to its end.
- `Matcher.replayed_of_shows`: whatever is remembered, the replay ends with the same screen.
- `Matcher.resolve_least`: which edits are found, and when there is none.
-/

namespace Shorthand

variable {goal : Goal} {wordbreak : Char} {screen kept : List Char} {context : String} {count : Nat}

/-- Two texts agree in one number of characters. -/
theorem Edit.Agree.length_eq {s t : List Char} (h : Edit.Agree s t kept) :
    kept.length = Edit.commonLength s t := by
  apply Nat.le_antisymm
  · exact Edit.length_le_commonLength h.left h.right
  · have hle := h.longest _ (Edit.agree_take s t).left (Edit.agree_take s t).right
    rwa [List.length_take_of_le (Edit.commonLength_le_left s t)] at hle

namespace Goal

section

variable (h : Edit.Agree screen goal.target.toList kept)
include h

theorem edit_eq_tooManyBackspaces_iff :
    goal.edit wordbreak screen = .error (.tooManyBackspaces context count) ↔
      Edit.maxBackspaces < screen.length - kept.length ∧ context = goal.context ∧
        count = screen.length - kept.length := by
  simp only [Goal.edit, ← h.length_eq]
  split
  next hmany => simp [hmany, eq_comm]
  next hfew => split <;> simp [hfew]

theorem edit_eq_outputTooLong_iff :
    goal.edit wordbreak screen = .error (.outputTooLong context count) ↔
      ¬ Edit.maxBackspaces < screen.length - kept.length ∧
        Edit.maxOutputLength < goal.target.length - kept.length ∧ context = goal.context ∧
          count = goal.target.length - kept.length := by
  simp only [Goal.edit, ← h.length_eq, List.length_drop, String.length_toList]
  split
  next hmany => simp [hmany]
  next hfew =>
    split
    next hlong => simp [hfew, hlong, eq_comm]
    next hshort => simp [hfew, hshort]

/-- If nothing is too long, the characters that agree stay. -/
theorem edit_eq_ok (hfew : ¬ Edit.maxBackspaces < screen.length - kept.length)
    (hshort : ¬ Edit.maxOutputLength < goal.target.length - kept.length) :
    goal.edit wordbreak screen = .ok ⟨screen.length - kept.length, goal.outputFunc,
      String.ofList (Edit.asTyped wordbreak (goal.target.toList.drop kept.length))⟩ := by
  apply edit_eq_ok_iff.mpr
  rw [← h.length_eq, List.length_drop, String.length_toList]
  exact ⟨Nat.not_lt.mp hfew, Nat.not_lt.mp hshort, rfl⟩

/-- Any way from the screen to the target takes as many deletions and as much output. -/
theorem le_of_take_append {deleted : Nat} {typed : List Char} (hdeleted : deleted ≤ screen.length)
    (htarget : screen.take (screen.length - deleted) ++ typed = goal.target.toList) :
    screen.length - kept.length ≤ deleted ∧
      goal.target.length - kept.length ≤ typed.length := by
  -- what it keeps is common to both texts
  have hright : screen.take (screen.length - deleted) <+: goal.target.toList :=
    ⟨typed, htarget⟩
  have hle := h.longest _ (List.take_prefix _ _) hright
  have hlength := congrArg List.length htarget
  rw [List.length_append, String.length_toList] at hlength
  rw [List.length_take] at hle hlength
  omega

end

/-- An edit makes the target of what it was made for. -/
theorem asTyped_applyTo {edit : Edit} (h : goal.edit wordbreak screen = .ok edit) :
    Edit.asTyped wordbreak (edit.applyTo screen) =
      Edit.asTyped wordbreak goal.target.toList := by
  obtain ⟨-, -, rfl⟩ := edit_eq_ok_iff.mp h
  have hle := Edit.commonLength_le_left screen goal.target.toList
  have hkept := Edit.take_commonLength screen goal.target.toList
  generalize Edit.commonLength screen goal.target.toList = n at hle hkept
  rw [Edit.applyTo, Nat.sub_sub_self hle, hkept, String.toList_ofList, Edit.asTyped_append,
    Edit.asTyped_asTyped, ← Edit.asTyped_append, List.take_append_drop]

end Goal

namespace Matcher

/-- What is on screen before the trigger of a goal when a resolver that remembers `memo` is asked for the
goal, or how a question of its replay fails. -/
def replayed (m : Matcher) (memo : Memo) (goal : Goal) : Except ResolveError (List Char) :=
  (ResolveM.outcome ((m.screenBefore goal).run (m.resolveUpTo m.goals.length))
    (memo.mark goal .pending)).1

variable {m : Matcher} {memo : Memo} {shown : List Char}

/-- After the replay it depends on the screen alone what the resolver says. -/
theorem outcome_resolve_of_replayed (hnew : memo.stage? goal = none)
    (hshown : m.replayed memo goal = .ok shown) :
    ((m.resolve goal).outcome memo).1 = m.attempt goal shown := by
  rw [resolve, maxDepth, resolveUpTo, ResolveM.outcome_bind_of_ok (ResolveM.outcome_get ..)]
  simp only [hnew]
  unfold replayed at hshown
  generalize hout : ResolveM.outcome ((m.screenBefore goal).run _) _ = out at hshown
  obtain ⟨result, memo'⟩ := out
  obtain rfl : result = .ok shown := hshown
  rw [outcome_workOut_of_ok hout]
  cases m.attempt goal shown <;> rfl

/-- What is on screen does not depend on what is remembered. -/
theorem replayed_of_shows {held : List Goal} {screen : Screen}
    (h : m.Shows goal goal.context.toList.dropLast screen) (htracks : memo.Tracks m held)
    (hheld : m.Harmless held goal) : m.replayed memo goal = .ok screen.shown.reverse := by
  have hscreen := h memo held m.goals.length htracks hheld (Nat.le_refl _)
  generalize hout : ResolveM.outcome ((m.replay _).run _) _ = out at hscreen
  obtain ⟨result, memo'⟩ := out
  obtain rfl : result = .ok screen := hscreen
  rw [replayed, screenBefore, Inquiry.run_bind, ResolveM.outcome_bind_of_ok hout]
  rfl

/-- A resolver finds the least edit. Let a goal be new to it whose replay comes to its end. Of the text
on screen, without the word break it may start with, it keeps what agrees with the target. If that takes
too many deletions, or else too much output, it says so. Otherwise its edit makes the target, with spaces
for word breaks, by an output that is the end of it, and no other deletions and output do so that are
fewer or shorter. -/
theorem resolve_least (hnew : memo.stage? goal = none) (hshown : m.replayed memo goal = .ok shown) :
    ∃ screen kept, screen = stripWordbreak m.alphabet.wordbreak shown ∧
      Edit.Agree screen goal.target.toList kept ∧
      (∀ context count,
        ((m.resolve goal).outcome memo).1 = .error (.tooManyBackspaces context count) ↔
          15 < screen.length - kept.length ∧ context = goal.context ∧
            count = screen.length - kept.length) ∧
      (∀ context length,
        ((m.resolve goal).outcome memo).1 = .error (.outputTooLong context length) ↔
          ¬ 15 < screen.length - kept.length ∧ 127 < goal.target.length - kept.length ∧
            context = goal.context ∧ length = goal.target.length - kept.length) ∧
      (¬ 15 < screen.length - kept.length → ¬ 127 < goal.target.length - kept.length →
        ∃ edit, ((m.resolve goal).outcome memo).1 = .ok edit ∧
          Edit.asTyped m.alphabet.wordbreak (edit.applyTo screen) =
            Edit.asTyped m.alphabet.wordbreak goal.target.toList ∧
          edit.output.toList <:+ Edit.asTyped m.alphabet.wordbreak goal.target.toList ∧
          ∀ deleted typed, deleted ≤ screen.length →
            screen.take (screen.length - deleted) ++ typed = goal.target.toList →
              edit.backspaces ≤ deleted ∧ edit.output.length ≤ typed.length) := by
  rw [outcome_resolve_of_replayed hnew hshown, attempt]
  generalize stripWordbreak m.alphabet.wordbreak shown = screen
  have hagree := Edit.agree_take screen goal.target.toList
  generalize screen.take (Edit.commonLength screen goal.target.toList) = kept at hagree
  refine ⟨screen, kept, rfl, hagree, fun _ _ => Goal.edit_eq_tooManyBackspaces_iff hagree,
    fun _ _ => Goal.edit_eq_outputTooLong_iff hagree, fun hfew hshort => ?_⟩
  have hedit : goal.edit m.alphabet.wordbreak screen = _ := Goal.edit_eq_ok hagree hfew hshort
  refine ⟨_, hedit, Goal.asTyped_applyTo hedit, ?_, fun deleted typed hdeleted htarget => ?_⟩
  · rw [String.toList_ofList]
    exact (List.drop_suffix _ _).map _
  · have hleast := Goal.le_of_take_append hagree hdeleted htarget
    simpa [Edit.asTyped, String.length_toList] using hleast

/-- The number sign is the word break here. The first rule leaves `#x#y` on screen, of which the second
one keeps the first word break and the `x#` that its target starts with. -/
theorem resolve_least_two_rules :
    ∃ m first second edit, ofRules ⟨['★'], ['☆'], '#', by decide, by decide⟩
        [⟨1, "#ab", "x y"⟩, ⟨2, "#abc", "x#z"⟩] = .ok m ∧ m.goals = [first, second] ∧
      m.replayed {} second = .ok ['#', 'x', '#', 'y'] ∧
      ((m.resolve second).outcome {}).1 = .ok edit ∧ edit.backspaces ≤ 1 ∧
      Edit.asTyped '#' (edit.applyTo ['x', '#', 'y']) = ['x', ' ', 'z'] := by
  obtain ⟨m, first, second, hrules, hgoals, hcontext, htarget, hrun⟩ :
      ∃ m first second, ofRules ⟨['★'], ['☆'], '#', by decide, by decide⟩
          [⟨1, "#ab", "x y"⟩, ⟨2, "#abc", "x#z"⟩] = .ok m ∧ m.goals = [first, second] ∧
        second.context = "#abc" ∧ second.target = "x#z" ∧
        ((m.replay ['#', 'a', 'b']).run (m.evaluateUpTo 1)).run =
          some (.ok ⟨['b', 'a', '#'], ['y', '#', 'x', '#']⟩) :=
    ⟨_, _, _, rfl, rfl, rfl, rfl, rfl⟩
  have hwf := wellFormed_of_ofRules hrules
  have hmem : second ∈ m.goals := by simp [hgoals]
  have hkeys : second.context.toList.dropLast = ['#', 'a', 'b'] := by
    rw [hcontext]
    rfl
  have hyields : (m.replay ['#', 'a', 'b']).Yields (fun goal edit => m.Evaluates goal (.ok edit))
      ⟨['b', 'a', '#'], ['y', '#', 'x', '#']⟩ :=
    (Inquiry.run_eq_ok_iff.mp hrun).imp fun _ _ h => ⟨1, h⟩
  have hshows := hwf.shows_of_yields hmem (by simp [hkeys]) hyields
  rw [← hkeys] at hshows
  have hreplayed : m.replayed {} second = .ok ['#', 'x', '#', 'y'] :=
    replayed_of_shows hshows Memo.tracks_empty harmless_nil
  obtain ⟨screen, kept, hscreen, -, -, -, hedit⟩ := resolve_least Memo.stage?_empty hreplayed
  rw [alphabet_of_ofRules hrules, htarget] at hedit
  rw [alphabet_of_ofRules hrules] at hscreen
  obtain rfl : screen = ['x', '#', 'y'] := hscreen
  -- three characters are below both limits, whatever is kept of them
  have hfew : ¬ 15 < 3 - kept.length := by omega
  have hshort : ¬ 127 < 3 - kept.length := by omega
  obtain ⟨edit, hedit, happly, -, hleast⟩ := hedit hfew hshort
  exact ⟨m, first, second, edit, hrules, hgoals, hreplayed, hedit,
    (hleast 1 ['z'] (by decide) rfl).1, happly⟩

end Matcher

end Shorthand
