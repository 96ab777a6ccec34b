import Shorthand.Proofs.Artifact
import Shorthand.Proofs.Resolver.Least
import Mathlib.Data.List.Induction

/-!
# Word breaks at the start of the screen

A context may begin with a word break, which is there to find the start of a word and is no part of what
the rule replaces. So an edit is worked out for the screen without the word break that it may start with,
wherever that came from. If it came from a context, all is well. But a rule that fires in a replay may
take everything off the screen and type a space first, and a space stands there as a word break. Then it
is stripped too, and the edit leaves it in front of the target.

Nothing else brings a word break to the start of the screen: a key does so only as the first one, or after
a rule that left nothing (`Matcher.WellFormed.sound_or_wiped`).

## Main statements

- `Edit.applyTo_append`: an edit leaves what is in front of the text it was made for.
- `Matcher.WellFormed.sound_or_wiped`: how the screen of a replay can start.
- `Matcher.applyTo_or_wiped`: what an edit makes of the whole screen.
- `Matcher.stripped_space_stays`: two rules of which the second one leaves a space.
-/

namespace Shorthand

variable {wordbreak : Char} {edit : Edit} {goal : Goal} {shown : List Char}

/-! ## Edits of the whole screen -/

/-- An edit that does not delete more than a text leaves alone what is in front of it. -/
theorem Edit.applyTo_append {text : List Char} (front : List Char)
    (hle : edit.backspaces ≤ text.length) :
    edit.applyTo (front ++ text) = front ++ edit.applyTo text := by
  have hlength : (front ++ text).length - edit.backspaces =
      front.length + (text.length - edit.backspaces) := by
    rw [List.length_append]
    omega
  rw [applyTo, applyTo, hlength, List.take_length_add_append, List.append_assoc]

/-- On the whole screen, an edit makes its target behind the word break that the screen starts with. -/
theorem Goal.asTyped_applyTo_shown
    (h : goal.edit wordbreak (stripWordbreak wordbreak shown) = .ok edit) :
    Edit.asTyped wordbreak (edit.applyTo shown) =
      Edit.asTyped wordbreak (leadingWordbreak wordbreak shown) ++
        Edit.asTyped wordbreak goal.target.toList := by
  have hle : edit.backspaces ≤ (stripWordbreak wordbreak shown).length := by
    obtain ⟨-, -, rfl⟩ := edit_eq_ok_iff.mp h
    exact Nat.sub_le _ _
  rw [← Goal.asTyped_applyTo h, ← Edit.asTyped_append, ← Edit.applyTo_append _ hle,
    leadingWordbreak_append_strip]

/-- A word break in an output is a space. -/
theorem Goal.eq_space_of_mem_output {screen : List Char} (h : goal.edit wordbreak screen = .ok edit)
    (hmem : wordbreak ∈ edit.output.toList) : wordbreak = ' ' := by
  obtain ⟨-, -, rfl⟩ := edit_eq_ok_iff.mp h
  rw [String.toList_ofList] at hmem
  obtain ⟨c, -, hc⟩ := List.mem_map.mp hmem
  split at hc
  next => exact hc.symm
  next hne => exact absurd hc hne

/-! ## Screens that start with a word break -/

/-- Whether an edit takes all of a screen away that shows `before` and a trigger, and then types nothing,
or a space first. -/
def Edit.Wipes (edit : Edit) (before : List Char) : Prop :=
  before.length ≤ edit.backspaces ∧
    (edit.output.toList = [] ∨ edit.output.toList.head? = some ' ')

/-- Whether the text on screen after some keys does not start with a word break, and is there if a key
is. -/
structure Screen.Sound (wordbreak : Char) (screen : Screen) : Prop where
  start : screen.shown.getLast? ≠ some wordbreak
  typed : screen.shown = [] → screen.typed = []

namespace Screen.Sound

variable {screen : Screen} {key : Char}

/-- A key leaves the start of the screen as it was, or it is the start itself. -/
theorem cons (h : screen.Sound wordbreak) (hkey : screen.typed = [] → key ≠ wordbreak) :
    Screen.Sound wordbreak ⟨key :: screen.typed, key :: screen.shown⟩ where
  start := by
    show (key :: screen.shown).getLast? ≠ some wordbreak
    cases hshown : screen.shown with
    | nil => simpa using hkey (h.typed hshown)
    | cons c shown =>
      rw [List.getLast?_cons_cons, ← hshown]
      exact h.start
  typed hnil := nomatch hnil

/-- A rule that fires leaves the start as it was, or its output is the start. -/
theorem fire (h : screen.Sound wordbreak) (hnot : ¬ edit.Wipes screen.shown)
    (hspace : wordbreak ∈ edit.output.toList → wordbreak = ' ') :
    (Screen.fire ⟨key :: screen.typed, key :: screen.shown⟩ wordbreak edit).Sound wordbreak := by
  have hfire : (Screen.fire ⟨key :: screen.typed, key :: screen.shown⟩ wordbreak edit).shown =
      (Edit.onScreen wordbreak edit.output.toList).reverse ++ screen.shown.drop edit.backspaces := rfl
  by_cases hle : screen.shown.length ≤ edit.backspaces
  · -- nothing is left, so there is an output that starts with another character than a space
    rw [List.drop_eq_nil_of_le hle, List.append_nil] at hfire
    cases houtput : edit.output.toList with
    | nil => exact absurd ⟨hle, .inl houtput⟩ hnot
    | cons c output =>
      have hc : c ≠ ' ' := by
        rintro rfl
        exact hnot ⟨hle, .inr (by rw [houtput, List.head?_cons])⟩
      have hne : c ≠ wordbreak := by
        rintro rfl
        exact hc (hspace (by rw [houtput]; exact List.mem_cons_self ..))
      rw [houtput, Edit.onScreen, List.map_cons, if_neg hc] at hfire
      constructor
      · rw [hfire, List.getLast?_reverse, List.head?_cons]
        simpa using hne
      · intro hnil
        rw [hfire] at hnil
        simp at hnil
  · -- the first character is among those that stay
    have hdrop : screen.shown.drop edit.backspaces ≠ [] := by
      simpa using hle
    constructor
    · rw [hfire, List.getLast?_append_of_ne_nil _ hdrop, List.getLast?_drop, if_neg hle]
      exact h.start
    · intro hnil
      rw [hfire] at hnil
      exact absurd (List.append_eq_nil_iff.mp hnil).2 hdrop

end Screen.Sound

namespace Matcher

/-- Whether a rule that wipes the screen fires while the keys before the trigger of a goal are
replayed. -/
def Wiped (m : Matcher) (goal : Goal) : Prop :=
  ∃ keys key before fired edit, keys ++ [key] <+: goal.context.toList.dropLast ∧
    m.Shows goal keys ⟨keys.reverse, before.reverse⟩ ∧ fired ∈ m.goals ∧
    m.Fires ⟨key :: keys.reverse, key :: before.reverse⟩ fired ∧ m.fresh fired = .ok edit ∧
    edit.Wipes before

variable {m : Matcher}

namespace WellFormed

variable (hwf : m.WellFormed)
include hwf

/-- The screen of a replay is sound unless a rule wiped it. -/
theorem sound_or_wiped (hgoal : goal ∈ m.goals)
    (hstart : goal.context.toList.head? ≠ some m.alphabet.wordbreak) {keys : List Char}
    (hkeys : keys <+: goal.context.toList.dropLast) {screen : Screen}
    (h : (m.replay keys).Yields (fun goal edit => m.Evaluates goal (.ok edit)) screen) :
    screen.Sound m.alphabet.wordbreak ∨ m.Wiped goal := by
  -- key by key: every screen before the last one has to be sound
  induction keys using List.reverseRecOn generalizing screen with
  | nil =>
    cases h
    exact .inl ⟨nofun, fun _ => rfl⟩
  | append_singleton keys key ih =>
    have hbefore : keys <+: goal.context.toList.dropLast := (List.prefix_append ..).trans hkeys
    rw [replay_append] at h
    obtain ⟨screen', hscreen', h⟩ := Inquiry.yields_bind_iff.mp h
    rw [List.foldlM_cons] at h
    obtain ⟨_, hpress, hend⟩ := Inquiry.yields_bind_iff.mp h
    cases hend
    refine (ih hbefore hscreen').elim (fun hsound => ?_) .inr
    have htyped : screen'.typed = keys.reverse := typed_of_replay hscreen'
    -- the first key is that of the context
    have hkey : screen'.typed = [] → key ≠ m.alphabet.wordbreak := by
      intro hnil
      rw [htyped, List.reverse_eq_nil_iff] at hnil
      subst hnil
      obtain ⟨rest, hrest⟩ := hkeys.trans (List.dropLast_prefix _)
      rw [← hrest] at hstart
      simpa using hstart
    obtain ⟨found, hfound, rfl⟩ := yields_press_iff.mp hpress
    cases found with
    | none => exact .inl (hsound.cons hkey)
    | some edit =>
      rw [firing_eq_askEach] at hfound
      obtain ⟨fired, hlast, hedit⟩ := hfound.exists_getLast?
      by_cases hwipes : edit.Wipes screen'.shown
      · have hmem := hwf.mem_goals_of_mem_contenders (List.mem_of_getLast? hlast)
        refine .inr ⟨keys, key, screen'.shown.reverse, fired, edit, hkeys, ?_, hmem, ?_,
          (hwf.fresh_eq_ok_iff hmem).mpr hedit, ?_⟩
        · rw [List.reverse_reverse, ← htyped]
          exact hwf.shows_of_yields hgoal hbefore hscreen'
        · rw [List.reverse_reverse, ← htyped]
          exact fires_iff_getLast?.mpr hlast
        · rw [Edit.Wipes, List.length_reverse]
          exact hwipes
      · obtain ⟨shown, -, hattempt⟩ := evaluates_ok_iff.mp hedit
        exact .inl (hsound.fire hwipes (Goal.eq_space_of_mem_output hattempt))

end WellFormed

/-- Let a list of rules be compiled, and take a rule whose context does not begin with a word break. Its
edit makes its target of the whole screen that its replay ends with, word breaks read as spaces, unless a
rule that fires in the replay wiped the screen. Then the screen may start with a word break, and the edit
leaves that as a space in front of the target. -/
theorem applyTo_or_wiped {alphabet : Alphabet} {rules : List Rule} {artifact : Artifact}
    (h : (Artifact.ofRules alphabet rules).result = .ok artifact) :
    ∃ m, ofRules alphabet rules = .ok m ∧
      ∀ goal ∈ m.goals, goal.context.toList.head? ≠ some alphabet.wordbreak →
        ∃ edit shown, m.fresh goal = .ok edit ∧
          m.Shows goal goal.context.toList.dropLast
            ⟨goal.context.toList.dropLast.reverse, shown.reverse⟩ ∧
          (shown.head? ≠ some alphabet.wordbreak ∧
              Edit.asTyped alphabet.wordbreak (edit.applyTo shown) =
                Edit.asTyped alphabet.wordbreak goal.target.toList ∨
            m.Wiped goal ∧ shown.head? = some alphabet.wordbreak ∧
              Edit.asTyped alphabet.wordbreak (edit.applyTo shown) =
                ' ' :: Edit.asTyped alphabet.wordbreak goal.target.toList) := by
  obtain ⟨_, _, m, edits, _, _, -, -, hrules, hfresh, -⟩ := Artifact.ofRules_eq_ok_iff.mp h
  have hwf := wellFormed_of_ofRules hrules
  obtain rfl := alphabet_of_ofRules hrules
  refine ⟨m, hrules, fun goal hgoal hstart => ?_⟩
  obtain ⟨edit, hedit⟩ := exists_mapM_eq_ok_iff.mp ⟨edits, mapM_eq_ok_iff.mpr hfresh⟩ goal hgoal
  have heval := (hwf.fresh_eq_ok_iff hgoal).mp hedit
  obtain ⟨⟨typed, screen⟩, hyields⟩ :=
    Resolvable.exists_yields_replay ⟨edit, heval⟩ (List.prefix_refl _)
  obtain rfl : typed = _ := typed_of_replay hyields
  obtain ⟨shown, rfl⟩ : ∃ shown : List Char, screen = shown.reverse :=
    ⟨screen.reverse, screen.reverse_reverse.symm⟩
  refine ⟨edit, shown, hedit, hwf.shows_of_yields hgoal (List.prefix_refl _) hyields, ?_⟩
  have hattempt := attempt_of_yields heval rfl hyields
  rw [List.reverse_reverse] at hattempt
  rw [Goal.asTyped_applyTo_shown hattempt, leadingWordbreak]
  rcases eq_or_ne shown.head? (some m.alphabet.wordbreak) with hhead | hhead
  · -- a sound screen does not start so
    rcases hwf.sound_or_wiped hgoal hstart (List.prefix_refl _) hyields with hsound | hwiped
    · have hne := hsound.start
      rw [List.getLast?_reverse] at hne
      exact absurd hhead hne
    · refine .inr ⟨hwiped, hhead, ?_⟩
      rw [if_pos hhead]
      simp [Edit.asTyped]
  · refine .inl ⟨hhead, ?_⟩
    rw [if_neg hhead]
    rfl

/-- These rules leave an `x` on screen, of which the edit makes the target. -/
theorem applyTo_or_wiped_two_rules :
    ∃ alphabet artifact m goal edit, alphabet = ⟨['★'], ['☆'], ' ', by decide, by decide⟩ ∧
      (Artifact.ofRules alphabet [⟨1, "abc", "yz"⟩, ⟨2, "ab", "x"⟩]).result = .ok artifact ∧
      ofRules alphabet [⟨1, "abc", "yz"⟩, ⟨2, "ab", "x"⟩] = .ok m ∧ goal ∈ m.goals ∧
      goal.context.toList.head? ≠ some ' ' ∧ m.fresh goal = .ok edit ∧
      m.Shows goal ['a', 'b'] ⟨['b', 'a'], ['x']⟩ ∧
      Edit.asTyped ' ' (edit.applyTo ['x']) = ['y', 'z'] := by
  obtain ⟨alphabet, artifact, halphabet, hartifact, -⟩ := Artifact.exists_artifact_two_rules
  obtain ⟨m, hrules, happly⟩ := applyTo_or_wiped hartifact
  have hwf := wellFormed_of_ofRules hrules
  have hwordbreak : alphabet.wordbreak = ' ' := by rw [halphabet]
  obtain ⟨goal, hgoal, hcontext, htarget, hrun⟩ :
      ∃ goal ∈ m.goals, goal.context.toList = ['a', 'b', 'c'] ∧
        goal.target.toList = ['y', 'z'] ∧
        ((m.replay ['a', 'b']).run (m.evaluateUpTo 1)).run = some (.ok ⟨['b', 'a'], ['x']⟩) := by
    subst halphabet
    cases hrules
    exact ⟨_, List.mem_cons_self .., rfl, rfl, rfl⟩
  have hstart : goal.context.toList.head? ≠ some ' ' := by
    rw [hcontext]
    decide
  have hkeys : goal.context.toList.dropLast = ['a', 'b'] := by
    rw [hcontext]
    rfl
  have hshows : m.Shows goal ['a', 'b'] ⟨['b', 'a'], ['x']⟩ :=
    hwf.shows_of_yields hgoal (by simp [hkeys])
      ((Inquiry.run_eq_ok_iff.mp hrun).imp fun _ _ h => ⟨1, h⟩)
  obtain ⟨edit, shown, hedit, hshown, hscreen⟩ := happly goal hgoal (hwordbreak ▸ hstart)
  -- the replay has one end only
  obtain rfl : shown = ['x'] := by
    have h := replayed_of_shows hshown Memo.tracks_empty harmless_nil
    rw [replayed_of_shows (hkeys ▸ hshows) Memo.tracks_empty harmless_nil] at h
    simpa using (Except.ok.inj h).symm
  rw [hwordbreak, htarget] at hscreen
  refine ⟨alphabet, artifact, m, goal, edit, halphabet, hartifact, hrules, hgoal, hstart, hedit,
    hshows, ?_⟩
  rcases hscreen with ⟨-, hscreen⟩ | ⟨-, hhead, -⟩
  · exact hscreen
  · simp at hhead

/-- Two rules, compiled with a colon for the word break. The first one types a space in place of its
trigger, which stands on screen as a colon. The second one is resolved without it, so it deletes the `x`
alone, and leaves the space in front of its target. -/
theorem stripped_space_stays :
    ∃ alphabet artifact m goal edit shown, alphabet = ⟨['★'], ['☆'], ':', by decide, by decide⟩ ∧
      (Artifact.ofRules alphabet [⟨1, "a", ":x"⟩, ⟨2, "ab", "yz"⟩]).result = .ok artifact ∧
      ofRules alphabet [⟨1, "a", ":x"⟩, ⟨2, "ab", "yz"⟩] = .ok m ∧ goal ∈ m.goals ∧
      goal.context.toList.head? ≠ some ':' ∧ m.fresh goal = .ok edit ∧
      m.Shows goal goal.context.toList.dropLast
        ⟨goal.context.toList.dropLast.reverse, shown.reverse⟩ ∧
      Edit.asTyped ':' (edit.applyTo shown) = [' ', 'y', 'z'] ∧
      Edit.asTyped ':' (edit.applyTo shown) ≠ Edit.asTyped ':' goal.target.toList := by
  obtain ⟨m, first, second, hrules, hgoals, hcontext, htarget, hfirst, hsecond, hrun, hspan⟩ :
      ∃ m first second, ofRules ⟨['★'], ['☆'], ':', by decide, by decide⟩
          [⟨1, "a", ":x"⟩, ⟨2, "ab", "yz"⟩] = .ok m ∧ m.goals = [first, second] ∧
        second.context.toList = ['a', 'b'] ∧ second.target.toList = ['y', 'z'] ∧
        (m.evaluateUpTo 1 first).run = some (.ok ⟨0, 0, " x"⟩) ∧
        (m.evaluateUpTo 2 second).run = some (.ok ⟨1, 0, "yz"⟩) ∧
        ((m.replay ['a']).run (m.evaluateUpTo 1)).run = some (.ok ⟨['a'], ['x', ':']⟩) ∧
        Table.span (m.edits [⟨0, 0, " x"⟩, ⟨1, 0, "yz"⟩]).entries ≤ Table.maxSize :=
    ⟨_, _, _, rfl, rfl, rfl, rfl, rfl, rfl, rfl, by decide⟩
  have hwf := wellFormed_of_ofRules hrules
  have hmem : second ∈ m.goals := by simp [hgoals]
  have hedit : m.fresh second = .ok ⟨1, 0, "yz"⟩ := (hwf.fresh_eq_ok_iff hmem).mpr ⟨2, hsecond⟩
  have hfresh : List.Forall₂ (fun goal edit => m.fresh goal = .ok edit) m.goals
      [⟨0, 0, " x"⟩, ⟨1, 0, "yz"⟩] := by
    rw [hgoals]
    exact .cons ((hwf.fresh_eq_ok_iff (by simp [hgoals])).mpr ⟨1, hfirst⟩) (.cons hedit .nil)
  obtain ⟨artifact, hartifact, -⟩ := Artifact.exists_ofRules (by simp) hrules hfresh
    (by decide : ∀ output ∈ [" x", "yz"], Pool.isAscii output) (by decide) hspan
  have hshows : m.Shows second second.context.toList.dropLast
      ⟨second.context.toList.dropLast.reverse, [':', 'x'].reverse⟩ := by
    have hkeys : second.context.toList.dropLast = ['a'] := by
      rw [hcontext]
      rfl
    rw [hkeys]
    exact hwf.shows_of_yields hmem (by simp [hkeys])
      ((Inquiry.run_eq_ok_iff.mp hrun).imp fun _ _ h => ⟨1, h⟩)
  refine ⟨_, artifact, m, second, _, [':', 'x'], rfl, hartifact, hrules, hmem, ?_, hedit, hshows,
    by decide, ?_⟩
  · rw [hcontext]
    decide
  · rw [htarget]
    decide

end Matcher

end Shorthand
