import Shorthand.Proofs.Artifact
import Shorthand.Proofs.Resolver.Firing
import Mathlib.Data.List.Induction
import Mathlib.Data.List.Infix

/-!
# Deletions of the rules that fire in replays

An edit deletes no more than was on screen at the end of the replay it was worked out in. But it is
used in other replays too. If the context of its rule has been typed there, what was typed before only
adds to the screen, as long as the same rules fire as in the replay of that rule alone. Then all that
the edit deletes is there. A rule whose context reaches back to what was typed before may fire
instead, though, and take away more (`Matcher.CutAcross`). The edit may then delete more than is
there, which clears the screen.

## Main statements

- `Screen.Ends.fire`: an edit leaves a screen the end of another one.
- `Matcher.WellFormed.getLast?_contenders_of_ends`: a rule that fires on a screen fires on the end of
  that too, unless its context reaches past it.
- `Matcher.WellFormed.ends_or_cutAcross`: what a replay shows ends with what the replay of a part shows.
- `Matcher.deletes_shown_or_cutAcross`: how many characters are deleted.
- `Matcher.deletes_beyond_screen`: three rules of which the second one deletes more than there is.
-/

namespace Shorthand

variable {wordbreak : Char} {edit : Edit} {goal : Goal}

/-! ## Ends of screens -/

/-- Whether the texts of one screen are ends of those of another one. -/
structure Screen.Ends (part whole : Screen) : Prop where
  -- both texts are kept backwards
  typed : part.typed <+: whole.typed
  shown : part.shown <+: whole.shown

/-- Whether a context has the whole text of a screen for its end, and more in front of it. -/
def Goal.ReachesPast (goal : Goal) (screen : Screen) : Prop :=
  (screen.shown <+: goal.context.toList.reverse ∧ screen.shown.length < goal.context.length) ∨
    (screen.typed <+: goal.context.toList.reverse ∧ screen.typed.length < goal.context.length)

namespace Screen.Ends

variable {part whole : Screen} (h : part.Ends whole)
include h

theorem cons (key : Char) :
    Screen.Ends ⟨key :: part.typed, key :: part.shown⟩ ⟨key :: whole.typed, key :: whole.shown⟩ :=
  ⟨(List.prefix_cons_inj key).mpr h.typed, (List.prefix_cons_inj key).mpr h.shown⟩

/-- An edit leaves a screen the end of another one. -/
theorem fire (wordbreak : Char) (edit : Edit) :
    (part.fire wordbreak edit).Ends (whole.fire wordbreak edit) :=
  ⟨h.typed, (List.prefix_append_right_inj _).mpr (h.shown.drop _)⟩

end Screen.Ends

/-- An edit deletes no more than is on screen where it was worked out. -/
theorem Goal.backspaces_le_length {shown : List Char}
    (h : goal.edit wordbreak (stripWordbreak wordbreak shown) = .ok edit) :
    edit.backspaces ≤ shown.length := by
  obtain ⟨-, -, rfl⟩ := edit_eq_ok_iff.mp h
  have hlength := congrArg List.length (leadingWordbreak_append_strip wordbreak shown)
  rw [List.length_append] at hlength
  show (stripWordbreak wordbreak shown).length - _ ≤ _
  omega

namespace Matcher

variable {m : Matcher} {part whole part' whole' : Screen} {key : Char}

/-! ## What fires on the end of a screen -/

namespace WellFormed

variable (hwf : m.WellFormed)
include hwf

theorem candidates_subset_of_prefix {text text' : List Char} (h : text <+: text') :
    m.candidates text ⊆ m.candidates text' := by
  intro goal hgoal
  obtain ⟨hmem, hne, hends⟩ := hwf.mem_candidates_iff.mp hgoal
  exact hwf.mem_candidates_iff.mpr ⟨hmem, hne, hends.trans h⟩

/-- The longest goal that ends a text is the longest that ends an end of the text too, unless it is
longer than that. -/
theorem getLast?_candidates_of_prefix {text text' : List Char} (h : text <+: text')
    (hlast : (m.candidates text').getLast? = some goal) :
    (m.candidates text).getLast? = some goal ∨
      (text <+: goal.context.toList.reverse ∧ text.length < goal.context.length) := by
  obtain ⟨hgoal, hne, hends⟩ := hwf.mem_candidates_iff.mp (List.mem_of_getLast? hlast)
  have hlength : goal.context.toList.reverse.length = goal.context.length := by
    rw [List.length_reverse, String.length_toList]
  rcases Nat.lt_or_ge text.length goal.context.length with hlt | hge
  · exact .inr ⟨List.prefix_of_prefix_length_le h hends (by omega), hlt⟩
  · have hfits := List.prefix_of_prefix_length_le hends h (by omega)
    refine .inl (hwf.getLast?_candidates (hwf.mem_candidates_iff.mpr ⟨hgoal, hne, hfits⟩) ?_)
    intro g hg
    exact length_le_of_getLast? (hwf.pairwise_candidates _) hlast
      (hwf.candidates_subset_of_prefix h hg)

section

variable (h : part.Ends whole)
include h

/-- Where nothing fires, nothing fires on an end of the screen. -/
theorem contenders_of_ends (hnil : m.contenders whole = []) : m.contenders part = [] := by
  unfold contenders at hnil ⊢
  have hshown := hwf.candidates_subset_of_prefix h.shown
  have htyped := hwf.candidates_subset_of_prefix h.typed
  cases hwhole : m.candidates whole.shown with
  | nil =>
    rw [hwhole] at hnil hshown
    have hnil : m.candidates whole.typed = [] := hnil
    rw [hnil] at htyped
    rw [List.subset_nil.mp hshown]
    exact List.subset_nil.mp htyped
  | cons goal goals =>
    rw [hwhole] at hnil
    cases hnil

/-- A rule that fires on a screen fires on an end of it too, unless its context reaches past that. -/
theorem getLast?_contenders_of_ends (hlast : (m.contenders whole).getLast? = some goal) :
    (m.contenders part).getLast? = some goal ∨ goal.ReachesPast part := by
  have hsubset := hwf.candidates_subset_of_prefix h.shown
  unfold contenders at hlast ⊢
  cases hwhole : m.candidates whole.shown with
  | nil =>
    rw [hwhole] at hlast hsubset
    rw [List.subset_nil.mp hsubset]
    exact (hwf.getLast?_candidates_of_prefix h.typed hlast).imp_right .inr
  | cons goal' goals =>
    rw [hwhole] at hlast
    refine (hwf.getLast?_candidates_of_prefix h.shown (hwhole ▸ hlast)).imp (fun hpart => ?_) .inl
    -- something ends the text shown here too, so the keys do not matter
    split
    next hnil =>
      rw [hnil] at hpart
      cases hpart
    next => exact hpart

/-- A key leaves a screen the end of another one, unless a rule fires on the whole that reaches past
the end. -/
theorem ends_or_reachesPast {answers : Goal → Edit → Prop} (hunique : Relator.RightUnique answers)
    (hpart : (m.press part key).Yields answers part')
    (hwhole : (m.press whole key).Yields answers whole') :
    part'.Ends whole' ∨ ∃ other,
      (m.contenders ⟨key :: whole.typed, key :: whole.shown⟩).getLast? = some other ∧
        other.ReachesPast ⟨key :: part.typed, key :: part.shown⟩ := by
  obtain ⟨foundPart, hfoundPart, rfl⟩ := yields_press_iff.mp hpart
  obtain ⟨found, hfound, rfl⟩ := yields_press_iff.mp hwhole
  rw [firing_eq_askEach] at hfoundPart hfound
  cases hlast : (m.contenders ⟨key :: whole.typed, key :: whole.shown⟩).getLast? with
  | none =>
    have hnil := List.getLast?_eq_none_iff.mp hlast
    rw [hwf.contenders_of_ends (h.cons key) hnil] at hfoundPart
    rw [hnil] at hfound
    cases hfoundPart
    cases hfound
    exact .inl (h.cons key)
  | some other =>
    rcases hwf.getLast?_contenders_of_ends (h.cons key) hlast with hsame | hreaches
    · -- one edit fires on both screens
      obtain ⟨editPart, heditPart, rfl⟩ := hfoundPart.exists_of_askEach hsame
      obtain ⟨edit, hedit, rfl⟩ := hfound.exists_of_askEach hlast
      obtain rfl := hunique heditPart hedit
      exact .inl ((h.cons key).fire _ _)
    · exact .inr ⟨other, rfl, hreaches⟩

end

end WellFormed

/-! ## Rules that cut across -/

/-- `m.FiresAt goal keys key fired`: in the replay of `goal`, `fired` fires when `key` is pressed after
`keys`. -/
def FiresAt (m : Matcher) (goal : Goal) (keys : List Char) (key : Char) (fired : Goal) : Prop :=
  ∃ before : List Char, m.Shows goal keys ⟨keys.reverse, before.reverse⟩ ∧
    m.Fires ⟨key :: keys.reverse, key :: before.reverse⟩ fired

/-- `m.CutAcross goal earlier fired`: in the replay of `goal`, after the keys `earlier`, the context
of `fired` is typed up to its trigger, and at one of these keys a rule fires whose context reaches
past what the replay of `fired` alone has then. -/
def CutAcross (m : Matcher) (goal : Goal) (earlier : List Char) (fired : Goal) : Prop :=
  ∃ (own : List Char) (key : Char) (shown : List Char),
    own ++ [key] <+: fired.context.toList.dropLast ∧
    m.Shows fired own ⟨own.reverse, shown.reverse⟩ ∧
    ∃ other ∈ m.goals, m.FiresAt goal (earlier ++ own) key other ∧
      other.ReachesPast ⟨key :: own.reverse, key :: shown.reverse⟩

variable {fired : Goal} {keys earlier own : List Char}

/-- What a replay shows, kept backwards, comes of some text. -/
theorem exists_eq_of_replay {answers : Goal → Edit → Prop} {screen : Screen}
    (h : (m.replay keys).Yields answers screen) :
    ∃ shown : List Char, screen = ⟨keys.reverse, shown.reverse⟩ := by
  refine ⟨screen.shown.reverse, ?_⟩
  rw [List.reverse_reverse, ← typed_of_replay h]

/-- In its own replay the edit of a goal deletes no more than is on screen. -/
theorem Resolvable.exists_shown (h : m.Resolvable goal) : ∃ (edit : Edit) (shown : List Char),
    m.Evaluates goal (.ok edit) ∧
      (m.replay goal.context.toList.dropLast).Yields (fun goal edit => m.Evaluates goal (.ok edit))
        ⟨goal.context.toList.dropLast.reverse, shown.reverse⟩ ∧
      edit.backspaces ≤ shown.length := by
  obtain ⟨edit, hedit⟩ := id h
  obtain ⟨screen, hyields⟩ := h.exists_yields_replay (List.prefix_refl _)
  obtain ⟨shown, rfl⟩ := exists_eq_of_replay hyields
  have hattempt := attempt_of_yields hedit rfl hyields
  rw [List.reverse_reverse] at hattempt
  exact ⟨edit, shown, hedit, hyields, Goal.backspaces_le_length hattempt⟩

/-- Rules that are compiled all have edits. -/
theorem exists_resolvable_of_artifact {alphabet : Alphabet} {rules : List Rule} {artifact : Artifact}
    (h : (Artifact.ofRules alphabet rules).result = .ok artifact) :
    ∃ m, ofRules alphabet rules = .ok m ∧ ∀ goal ∈ m.goals, m.Resolvable goal := by
  obtain ⟨_, _, m, edits, _, _, -, -, hrules, hfresh, -⟩ := Artifact.ofRules_eq_ok_iff.mp h
  refine ⟨m, hrules, fun goal hgoal => ?_⟩
  obtain ⟨edit, hedit⟩ := exists_mapM_eq_ok_iff.mp ⟨edits, mapM_eq_ok_iff.mpr hfresh⟩ goal hgoal
  exact ⟨edit, ((wellFormed_of_ofRules hrules).fresh_eq_ok_iff hgoal).mp hedit⟩

namespace WellFormed

variable (hwf : m.WellFormed)
include hwf

/-- What a replay shows ends with what the replay of a part of its keys shows, unless a rule cut
across. -/
theorem ends_or_cutAcross (hgoal : goal ∈ m.goals) (hfired : fired ∈ m.goals)
    (hkeys : earlier ++ own <+: goal.context.toList.dropLast)
    (hown : own <+: fired.context.toList.dropLast)
    (hwhole : (m.replay (earlier ++ own)).Yields (fun goal edit => m.Evaluates goal (.ok edit)) whole)
    (hpart : (m.replay own).Yields (fun goal edit => m.Evaluates goal (.ok edit)) part) :
    part.Ends whole ∨ m.CutAcross goal earlier fired := by
  -- key by key, from the start of the part
  induction own using List.reverseRecOn generalizing whole part with
  | nil =>
    cases hpart
    exact .inl ⟨List.nil_prefix, List.nil_prefix⟩
  | append_singleton own key ih =>
    rw [← List.append_assoc] at hkeys hwhole
    have hkeys' := (List.prefix_append ..).trans hkeys
    have hown' := (List.prefix_append ..).trans hown
    rw [replay_append] at hwhole hpart
    obtain ⟨whole', hwhole', hwhole⟩ := Inquiry.yields_bind_iff.mp hwhole
    obtain ⟨part', hpart', hpart⟩ := Inquiry.yields_bind_iff.mp hpart
    rw [List.foldlM_cons] at hwhole hpart
    obtain ⟨_, hwhole, hend⟩ := Inquiry.yields_bind_iff.mp hwhole
    cases hend
    obtain ⟨_, hpart, hend⟩ := Inquiry.yields_bind_iff.mp hpart
    cases hend
    refine (ih hkeys' hown' hwhole' hpart').elim (fun hends => ?_) .inr
    refine (hwf.ends_or_reachesPast hends rightUnique_evaluates hpart hwhole).imp_right ?_
    rintro ⟨other, hlast, hreaches⟩
    obtain ⟨before, rfl⟩ := exists_eq_of_replay hwhole'
    obtain ⟨shown, rfl⟩ := exists_eq_of_replay hpart'
    exact ⟨own, key, shown, hown, hwf.shows_of_yields hfired hown' hpart', other,
      hwf.mem_goals_of_mem_contenders (List.mem_of_getLast? hlast),
      ⟨before, hwf.shows_of_yields hgoal hkeys' hwhole', fires_iff_getLast?.mpr hlast⟩, hreaches⟩

section

variable {before : List Char} (hgoal : goal ∈ m.goals) (hresolvable : m.Resolvable goal)
  (hkeys : keys ++ [key] <+: goal.context.toList.dropLast)
  (hscreen : (m.replay keys).Yields (fun goal edit => m.Evaluates goal (.ok edit))
    ⟨keys.reverse, before.reverse⟩)
  (hfires : m.Fires ⟨key :: keys.reverse, key :: before.reverse⟩ fired)
  (hedit : m.Evaluates fired (.ok edit))
include hgoal hresolvable hkeys hscreen hfires hedit

/-- What a replay shows after a rule fired. -/
theorem shows_fire : m.Shows goal (keys ++ [key])
    (Screen.fire ⟨key :: keys.reverse, key :: before.reverse⟩ m.alphabet.wordbreak edit) := by
  obtain ⟨screen, hyields⟩ := hresolvable.exists_yields_replay hkeys
  refine hwf.shows_of_yields hgoal hkeys ?_
  have hpress := hyields
  rw [replay_append] at hpress
  obtain ⟨_, hscreen', hpress⟩ := Inquiry.yields_bind_iff.mp hpress
  obtain rfl := Inquiry.Yields.unique rightUnique_evaluates hscreen hscreen'
  rw [List.foldlM_cons] at hpress
  obtain ⟨_, hpress, hend⟩ := Inquiry.yields_bind_iff.mp hpress
  cases hend
  obtain ⟨found, hfound, rfl⟩ := yields_press_iff.mp hpress
  rw [firing_eq_askEach] at hfound
  obtain ⟨edit', hedit', rfl⟩ := hfound.exists_of_askEach (fires_iff_getLast?.mp hfires)
  obtain rfl := rightUnique_evaluates hedit hedit'
  exact hyields

/-- If the edit deletes more than is on screen, its output is all that is left. -/
theorem shows_output (hmore : before.length ≤ edit.backspaces) :
    m.Shows goal (keys ++ [key]) ⟨(keys ++ [key]).reverse,
      (Edit.onScreen m.alphabet.wordbreak edit.output.toList).reverse⟩ := by
  have hshows := hwf.shows_fire hgoal hresolvable hkeys hscreen hfires hedit
  rw [Screen.fire, List.drop_eq_nil_of_le (by simpa using hmore), List.append_nil] at hshows
  rw [List.reverse_append]
  exact hshows

end

end WellFormed

/-- Let a list of rules be compiled. The edit of a rule deletes no more than its replay leaves on
screen. And let a rule fire in the replay of another one. Where its edit deletes more than is there then,
with the trigger, there was less than its own replay ended with, and the screen is cleared, so that only
the output is left. There, the context of the rule is not all that has been typed; if it has been typed,
another rule cut across it; and if it ends the text on screen, its own replay ended with as many
characters as it has, or more. -/
theorem deletes_shown_or_cutAcross {alphabet : Alphabet} {rules : List Rule} {artifact : Artifact}
    (h : (Artifact.ofRules alphabet rules).result = .ok artifact) :
    ∃ m, ofRules alphabet rules = .ok m ∧ ∀ goal ∈ m.goals,
      (∃ (edit : Edit) (shown : List Char), m.fresh goal = .ok edit ∧
        m.Shows goal goal.context.toList.dropLast
          ⟨goal.context.toList.dropLast.reverse, shown.reverse⟩ ∧
        edit.backspaces ≤ shown.length) ∧
      ∀ keys key, keys ++ [key] <+: goal.context.toList.dropLast →
        ∃ before : List Char, m.Shows goal keys ⟨keys.reverse, before.reverse⟩ ∧
          ∀ fired ∈ m.goals, m.Fires ⟨key :: keys.reverse, key :: before.reverse⟩ fired →
            ∃ (edit : Edit) (shown : List Char), m.fresh fired = .ok edit ∧
              m.Shows fired fired.context.toList.dropLast
                ⟨fired.context.toList.dropLast.reverse, shown.reverse⟩ ∧
              (edit.backspaces + 1 ≤ (before ++ [key]).length ∨
                before.length < shown.length ∧
                m.Shows goal (keys ++ [key]) ⟨(keys ++ [key]).reverse,
                  (Edit.onScreen alphabet.wordbreak edit.output.toList).reverse⟩ ∧
                fired.context.toList ≠ keys ++ [key] ∧
                (∀ earlier own, keys = earlier ++ own → fired.context.toList = own ++ [key] →
                  m.CutAcross goal earlier fired) ∧
                (fired.context.toList <:+ before ++ [key] →
                  fired.context.length ≤ shown.length)) := by
  obtain ⟨m, hrules, hall⟩ := exists_resolvable_of_artifact h
  have hwf := wellFormed_of_ofRules hrules
  obtain rfl := alphabet_of_ofRules hrules
  refine ⟨m, hrules, fun goal hgoal => ?_⟩
  obtain ⟨edit, shown, hedit, hyields, hle⟩ := (hall goal hgoal).exists_shown
  refine ⟨⟨edit, shown, (hwf.fresh_eq_ok_iff hgoal).mpr hedit,
    hwf.shows_of_yields hgoal (List.prefix_refl _) hyields, hle⟩, fun keys key hkeys => ?_⟩
  have hkeys' : keys <+: goal.context.toList.dropLast := (List.prefix_append ..).trans hkeys
  obtain ⟨screen, hscreen⟩ := (hall goal hgoal).exists_yields_replay hkeys'
  obtain ⟨before, rfl⟩ := exists_eq_of_replay hscreen
  refine ⟨before, hwf.shows_of_yields hgoal hkeys' hscreen, fun fired hfired hfires => ?_⟩
  obtain ⟨edit, shown, hedit, hyields, hle⟩ := (hall fired hfired).exists_shown
  refine ⟨edit, shown, (hwf.fresh_eq_ok_iff hfired).mpr hedit,
    hwf.shows_of_yields hfired (List.prefix_refl _) hyields, ?_⟩
  rcases Nat.lt_or_ge before.length edit.backspaces with hmore | hfew
  · have hshort : before.length < shown.length := Nat.lt_of_lt_of_le hmore hle
    -- a screen that ends with that of the own replay would be long enough
    have hnot {typed typed' : List Char} :
        ¬ Screen.Ends ⟨typed, shown.reverse⟩ ⟨typed', before.reverse⟩ := by
      intro hends
      have hlength := hends.shown.length_le
      rw [List.length_reverse, List.length_reverse] at hlength
      omega
    refine .inr ⟨hshort,
      hwf.shows_output hgoal (hall goal hgoal) hkeys hscreen hfires hedit hmore.le,
      fun hcontext => ?_, fun earlier own heq hcontext => ?_, fun hsuffix => ?_⟩
    · -- the replays would be the same
      rw [hcontext, List.dropLast_concat] at hyields
      have hsame := Inquiry.Yields.unique rightUnique_evaluates hyields hscreen
      rw [List.reverse_inj.mp (Screen.mk.inj hsame).2] at hshort
      exact absurd hshort (Nat.lt_irrefl _)
    · subst heq
      rw [hcontext, List.dropLast_concat] at hyields
      have hown : own <+: fired.context.toList.dropLast := by simp [hcontext]
      exact (hwf.ends_or_cutAcross hgoal hfired hkeys' hown hscreen hyields).resolve_left hnot
    · have hlength := hsuffix.length_le
      rw [List.length_append, List.length_singleton, String.length_toList] at hlength
      omega
  · rw [List.length_append, List.length_singleton]
    exact .inl (Nat.succ_le_succ hfew)

/-! ## Three rules -/

/-- The first rule fires in the replay of the third one and leaves one character of three. Then the
second rule fires, which was resolved for two of them and the next one. -/
theorem exists_artifact_three_rules :
    ∃ alphabet artifact m fired goal, alphabet = ⟨['@'], ['%'], ':', by decide, by decide⟩ ∧
      (Artifact.ofRules alphabet
        [⟨1, "abc", "z"⟩, ⟨2, "bcd", "x"⟩, ⟨3, "abcde", "xy"⟩]).result = .ok artifact ∧
      ofRules alphabet [⟨1, "abc", "z"⟩, ⟨2, "bcd", "x"⟩, ⟨3, "abcde", "xy"⟩] = .ok m ∧
      fired ∈ m.goals ∧ goal ∈ m.goals ∧ fired.context.toList = ['b', 'c', 'd'] ∧
      goal.context.toList = ['a', 'b', 'c', 'd', 'e'] ∧ m.fresh fired = .ok ⟨2, 0, "x"⟩ ∧
      m.Shows goal ['a', 'b', 'c'] ⟨['c', 'b', 'a'], ['z']⟩ ∧
      m.Fires ⟨['d', 'c', 'b', 'a'], ['d', 'z']⟩ fired := by
  obtain ⟨m, first, second, third, hrules, hgoals, hcontext, hcontext', hfirst, hsecond, hthird, hrun,
      hcontenders, hspan⟩ :
      ∃ m first second third, ofRules ⟨['@'], ['%'], ':', by decide, by decide⟩
          [⟨1, "abc", "z"⟩, ⟨2, "bcd", "x"⟩, ⟨3, "abcde", "xy"⟩] = .ok m ∧
        m.goals = [first, second, third] ∧ second.context.toList = ['b', 'c', 'd'] ∧
        third.context.toList = ['a', 'b', 'c', 'd', 'e'] ∧
        (m.evaluateUpTo 1 first).run = some (.ok ⟨2, 0, "z"⟩) ∧
        (m.evaluateUpTo 1 second).run = some (.ok ⟨2, 0, "x"⟩) ∧
        (m.evaluateUpTo 2 third).run = some (.ok ⟨0, 0, "y"⟩) ∧
        ((m.replay ['a', 'b', 'c']).run (m.evaluateUpTo 1)).run =
          some (.ok ⟨['c', 'b', 'a'], ['z']⟩) ∧
        m.contenders ⟨['d', 'c', 'b', 'a'], ['d', 'z']⟩ = [second] ∧
        Table.span (m.edits [⟨2, 0, "z"⟩, ⟨2, 0, "x"⟩, ⟨0, 0, "y"⟩]).entries ≤ Table.maxSize :=
    ⟨_, _, _, _, rfl, rfl, rfl, rfl, rfl, rfl, rfl, rfl, rfl, by decide⟩
  have hwf := wellFormed_of_ofRules hrules
  have hmem : second ∈ m.goals := by simp [hgoals]
  have hmem' : third ∈ m.goals := by simp [hgoals]
  have hedit : m.fresh second = .ok ⟨2, 0, "x"⟩ := (hwf.fresh_eq_ok_iff hmem).mpr ⟨1, hsecond⟩
  have hfresh : List.Forall₂ (fun goal edit => m.fresh goal = .ok edit) m.goals
      [⟨2, 0, "z"⟩, ⟨2, 0, "x"⟩, ⟨0, 0, "y"⟩] := by
    rw [hgoals]
    exact .cons ((hwf.fresh_eq_ok_iff (by simp [hgoals])).mpr ⟨1, hfirst⟩)
      (.cons hedit (.cons ((hwf.fresh_eq_ok_iff hmem').mpr ⟨2, hthird⟩) .nil))
  obtain ⟨artifact, hartifact, -⟩ := Artifact.exists_ofRules (by simp) hrules hfresh
    (by decide : ∀ output ∈ ["z", "x", "y"], Pool.isAscii output) (by decide) hspan
  refine ⟨_, artifact, m, second, third, rfl, hartifact, hrules, hmem, hmem', hcontext, hcontext',
    hedit, ?_, fires_iff_getLast?.mpr (by rw [hcontenders, List.getLast?_singleton])⟩
  exact hwf.shows_of_yields hmem' (by simp [hcontext'])
    ((Inquiry.run_eq_ok_iff.mp hrun).imp fun _ _ h => ⟨1, h⟩)

/-- The context of the second rule has been typed, and the first one cut across it. Its output is all
that is left on screen. -/
theorem deletes_shown_or_cutAcross_three_rules :
    ∃ alphabet artifact m fired goal, alphabet = ⟨['@'], ['%'], ':', by decide, by decide⟩ ∧
      (Artifact.ofRules alphabet
        [⟨1, "abc", "z"⟩, ⟨2, "bcd", "x"⟩, ⟨3, "abcde", "xy"⟩]).result = .ok artifact ∧
      ofRules alphabet [⟨1, "abc", "z"⟩, ⟨2, "bcd", "x"⟩, ⟨3, "abcde", "xy"⟩] = .ok m ∧
      fired ∈ m.goals ∧ goal ∈ m.goals ∧ m.CutAcross goal ['a'] fired ∧
      m.Shows goal ['a', 'b', 'c', 'd'] ⟨['d', 'c', 'b', 'a'], ['x']⟩ := by
  obtain ⟨alphabet, artifact, m, fired, goal, halphabet, hartifact, hrules, hfired, hgoal, hcontext,
    hcontext', hedit, hshows, hfires⟩ := exists_artifact_three_rules
  obtain ⟨m', hrules', hall⟩ := deletes_shown_or_cutAcross hartifact
  obtain rfl := Except.ok.inj (hrules.symm.trans hrules')
  obtain ⟨before, hbefore, hfire⟩ := (hall goal hgoal).2 ['a', 'b', 'c'] 'd' (by simp [hcontext'])
  -- a replay has one end only
  obtain rfl : before = ['z'] := by
    have hscreen := (hbefore {} [] _ Memo.tracks_empty harmless_nil (Nat.le_refl _)).symm.trans
      (hshows {} [] _ Memo.tracks_empty harmless_nil (Nat.le_refl _))
    have hreverse : before.reverse = ['z'] := (Screen.mk.inj (Except.ok.inj hscreen)).2
    rw [← before.reverse_reverse, hreverse]
    rfl
  obtain ⟨edit, shown, hedit', -, hfew | ⟨-, hleft, -, hcut, -⟩⟩ := hfire fired hfired hfires
  · -- two deletions and the trigger are more than the two characters
    obtain rfl := Except.ok.inj (hedit.symm.trans hedit')
    exact absurd hfew (by decide)
  · obtain rfl := Except.ok.inj (hedit.symm.trans hedit')
    exact ⟨alphabet, artifact, m, fired, goal, halphabet, hartifact, hrules, hfired, hgoal,
      hcut ['a'] ['b', 'c'] rfl hcontext, hleft⟩

/-- When the second rule fires, there are two characters on screen with its trigger, and its edit
deletes three. -/
theorem deletes_beyond_screen :
    ∃ alphabet artifact m fired goal edit, alphabet = ⟨['@'], ['%'], ':', by decide, by decide⟩ ∧
      (Artifact.ofRules alphabet
        [⟨1, "abc", "z"⟩, ⟨2, "bcd", "x"⟩, ⟨3, "abcde", "xy"⟩]).result = .ok artifact ∧
      ofRules alphabet [⟨1, "abc", "z"⟩, ⟨2, "bcd", "x"⟩, ⟨3, "abcde", "xy"⟩] = .ok m ∧
      fired ∈ m.goals ∧ goal ∈ m.goals ∧ goal.context.toList = ['a', 'b', 'c', 'd', 'e'] ∧
      m.Shows goal ['a', 'b', 'c'] ⟨['c', 'b', 'a'], ['z']⟩ ∧
      m.Fires ⟨['d', 'c', 'b', 'a'], ['d', 'z']⟩ fired ∧ m.fresh fired = .ok edit ∧
      ¬ edit.backspaces + 1 ≤ ['z', 'd'].length := by
  obtain ⟨alphabet, artifact, m, fired, goal, halphabet, hartifact, hrules, hfired, hgoal, -, hcontext,
    hedit, hshows, hfires⟩ := exists_artifact_three_rules
  exact ⟨alphabet, artifact, m, fired, goal, _, halphabet, hartifact, hrules, hfired, hgoal, hcontext,
    hshows, hfires, hedit, by decide⟩

end Matcher

end Shorthand
