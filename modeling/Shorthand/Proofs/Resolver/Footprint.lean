import Shorthand.Proofs.Resolver.Agreement
import Shorthand.Proofs.Resolver.Order

/-!
# What an edit depends on

The edit of a goal is worked out from those of the goals that its look-ups come to, and these from
others in turn. All other goals are of no account: without them the walks down the trie become
shorter, but they end where nothing more is to be found anyway. So in a matcher that keeps the goals
of that footprint, in whatever order, the goal has the edit that it had before.

## Main statements

- `Inquiry.Yields.and_asks`: a computation that ends needs no answers but those to its questions.
- `Matcher.Keeps.yields_press`: a key does the same where all goals are kept that it asks for.
- `Matcher.Keeps.evaluateUpTo`: an evaluation that succeeds does so again where its footprint is kept.
- `Matcher.fresh_of_footprint`: the edit of a rule among fewer rules.
-/

namespace Shorthand

/-! ## Answers that are needed -/

namespace Inquiry

variable {α : Type} {answers answers' : Goal → Edit → Prop} {x : Inquiry α} {a : α}
  {found result : Option Edit} {goals goals' : List Goal}

/-- A computation that ends needs no answers but those to its questions. -/
theorem Yields.and_asks (h : x.Yields answers a) :
    x.Yields (fun goal edit => x.Asks answers goal ∧ answers goal edit) a := by
  induction h with
  | answer a => exact .answer a
  | ask hanswer _ ih =>
    -- the questions that follow the first one are questions of the whole
    exact .ask ⟨.now _ _, hanswer⟩ (ih.imp fun _ _ h => ⟨.later hanswer h.1, h.2⟩)

/-- Where goals are asked for one after the other, each of them gets an answer. -/
theorem Yields.exists_of_mem_askEach (h : (askEach found goals).Yields answers result) :
    ∀ goal ∈ goals, ∃ edit, answers goal edit := by
  induction goals generalizing found with
  | nil => exact List.forall_mem_nil _
  | cons goal goals ih =>
    cases h with
    | ask hanswer h => exact List.forall_mem_cons.mpr ⟨⟨_, hanswer⟩, ih h⟩

/-- Asking for goals that differ in their positions only comes to the same if the answers do. -/
theorem Yields.askEach_congr (h : (askEach found goals).Yields answers result)
    (himp : ∀ goal goal' edit, goal.unplaced = goal'.unplaced → answers goal edit →
      answers' goal' edit)
    (hgoals : goals.map Goal.unplaced = goals'.map Goal.unplaced) :
    (askEach found goals').Yields answers' result := by
  induction goals generalizing goals' found with
  | nil =>
    rw [List.map_nil, eq_comm, List.map_eq_nil_iff] at hgoals
    rw [hgoals]
    cases h
    exact .answer _
  | cons goal goals ih =>
    rw [List.map_cons] at hgoals
    obtain ⟨goal', goals', rfl, hgoal, hgoals⟩ := List.map_eq_cons_iff.mp hgoals.symm
    cases h with
    | ask hanswer h => exact .ask (himp _ _ _ hgoal.symm hanswer) (ih h hgoals.symm)

end Inquiry

namespace Matcher

variable {m m' : Matcher} {goal goal' : Goal} {edit : Edit} {needed : Goal → Prop}

/-! ## Matchers that keep a footprint -/

namespace Keeps

variable (h : m.Keeps needed m')
include h

section

variable {answers answers' : Goal → Edit → Prop}
  (hneeded : ∀ goal edit, answers goal edit → needed goal)
  (himp : ∀ goal goal' edit, goal.unplaced = goal'.unplaced → answers goal edit →
    answers' goal' edit)
include hneeded himp

/-- A key does the same where all goals are kept that it asks for. -/
theorem yields_press {screen screen' : Screen} {key : Char}
    (hpress : (m.press screen key).Yields answers screen') :
    (m'.press screen key).Yields answers' screen' := by
  obtain ⟨found, hfound, rfl⟩ := yields_press_iff.mp hpress
  rw [firing_eq_askEach] at hfound
  have hcontenders := h.contenders fun goal hgoal =>
    (hfound.exists_of_mem_askEach goal hgoal).elim fun edit hedit => hneeded goal edit hedit
  refine yields_press_iff.mpr ⟨found, ?_, by rw [h.alphabet]⟩
  rw [firing_eq_askEach]
  exact hfound.askEach_congr himp hcontenders

theorem yields_foldlM_press {screen screen' : Screen} {keys : List Char}
    (hkeys : (keys.foldlM m.press screen).Yields answers screen') :
    (keys.foldlM m'.press screen).Yields answers' screen' := by
  induction keys generalizing screen with
  | nil =>
    cases hkeys
    exact .answer _
  | cons key keys ih =>
    rw [List.foldlM_cons, Inquiry.yields_bind_iff] at hkeys ⊢
    obtain ⟨screen'', hkey, hkeys⟩ := hkeys
    exact ⟨screen'', h.yields_press hneeded himp hkey, ih hkeys⟩

theorem yields_screenBefore {shown : List Char} (hgoal : goal.unplaced = goal'.unplaced)
    (hshown : (m.screenBefore goal).Yields answers shown) :
    (m'.screenBefore goal').Yields answers' shown := by
  rw [screenBefore, Inquiry.yields_bind_iff] at hshown ⊢
  obtain ⟨screen, hscreen, hshown⟩ := hshown
  obtain rfl := Inquiry.yields_answer_iff.mp hshown
  rw [← Goal.context_eq_of_unplaced hgoal]
  exact ⟨screen, h.yields_foldlM_press hneeded himp hscreen, .answer _⟩

end

/-- An evaluation that succeeds does so again where everything is kept that it looks up, directly or by
way of other goals. -/
theorem evaluateUpTo (hclosed : ∀ goal goal', needed goal → m.LooksUp goal goal' → needed goal')
    {depth : Nat} (hgoal : needed goal) (hunplaced : goal.unplaced = goal'.unplaced)
    (hrun : (m.evaluateUpTo depth goal).run = some (.ok edit)) :
    (m'.evaluateUpTo depth goal').run = some (.ok edit) := by
  induction depth generalizing goal goal' edit with
  | zero => cases hrun
  | succ depth ih =>
    obtain ⟨shown, hyields, hattempt⟩ := evaluateUpTo_succ_eq_ok_iff.mp hrun
    -- what the replay asks for is looked up, so it is needed too
    have hlooks (g : Goal) (edit : Edit) (hg : (m.screenBefore goal).Asks
        (fun goal edit => (m.evaluateUpTo depth goal).run = some (.ok edit)) g ∧
          (m.evaluateUpTo depth g).run = some (.ok edit)) : needed g :=
      hclosed goal g hgoal (hg.1.imp fun _ _ hedit => ⟨depth, hedit⟩)
    refine evaluateUpTo_succ_eq_ok_iff.mpr ⟨shown, ?_, ?_⟩
    · exact h.yields_screenBefore hlooks
        (fun g g' edit hunplaced hg => ih (hlooks g edit hg) hunplaced hg.2) hunplaced hyields.and_asks
    · rw [attempt, ← Goal.edit_eq_of_unplaced hunplaced, ← h.alphabet]
      exact hattempt

end Keeps

/-! ## Fewer rules -/

section

variable {alphabet : Alphabet} {rules rules' : List Rule}

theorem exists_ofRules_of_subperm (hrules : ofRules alphabet rules = .ok m)
    (hsub : rules'.Subperm rules) : ∃ m', ofRules alphabet rules' = .ok m' := by
  obtain ⟨hall, hnodup⟩ := exists_ofRules_iff.mp ⟨m, hrules⟩
  refine exists_ofRules_iff.mpr ⟨fun r hr => hall r (hsub.subset hr), ?_⟩
  obtain ⟨_, hperm, hsub⟩ := hsub
  exact (hperm.map (·.context)).nodup_iff.mp (hnodup.sublist (hsub.map _))

/-- Fewer rules keep what is needed if they include the rules of that. -/
theorem keeps_of_subset (hrules : ofRules alphabet rules = .ok m)
    (hrules' : ofRules alphabet rules' = .ok m') (hsub : rules' ⊆ rules)
    (hneeded : ∀ i r, rules[i]? = some r → needed (Goal.ofRule alphabet i r) → r ∈ rules') :
    m.Keeps needed m' where
  left := wellFormed_of_ofRules hrules
  right := wellFormed_of_ofRules hrules'
  alphabet := by rw [alphabet_of_ofRules hrules, alphabet_of_ofRules hrules']
  subset := by
    rw [goals_of_ofRules hrules, goals_of_ofRules hrules', map_unplaced_goalsOf,
      map_unplaced_goalsOf]
    exact List.map_subset _ hsub
  needed goal hgoal hneeds := by
    rw [goals_of_ofRules hrules] at hgoal
    obtain ⟨i, hi⟩ := List.mem_iff_getElem?.mp hgoal
    rw [getElem?_goalsOf] at hi
    obtain ⟨r, hr, rfl⟩ := Option.map_eq_some_iff.mp hi
    rw [goals_of_ofRules hrules', map_unplaced_goalsOf, Goal.unplaced_ofRule]
    exact List.mem_map_of_mem (hneeded i r hr hneeds)

end

/-- The edit of a rule depends on the rules only that its resolution looks up. Let a rule have an
edit, and take the rules that its look-ups come to, those that the look-ups of these come to, and so
on. Any choice of rules that has all of them, in any order, has a matcher, in which the rule has the
same edit. -/
theorem fresh_of_footprint {alphabet : Alphabet} {rules : List Rule}
    (hrules : ofRules alphabet rules = .ok m) {i : Nat} {r : Rule} (hr : rules[i]? = some r)
    (hedit : m.fresh (Goal.ofRule alphabet i r) = .ok edit) {rules' : List Rule}
    (hsub : rules'.Subperm rules)
    (hfootprint : ∀ j s, rules[j]? = some s →
      Relation.ReflTransGen m.LooksUp (Goal.ofRule alphabet i r) (Goal.ofRule alphabet j s) →
        s ∈ rules') :
    ∃ m', ofRules alphabet rules' = .ok m' ∧ (∃ i' : Nat, rules'[i']? = some r) ∧
      ∀ i' : Nat, rules'[i']? = some r → m'.fresh (Goal.ofRule alphabet i' r) = .ok edit := by
  obtain ⟨m', hrules'⟩ := exists_ofRules_of_subperm hrules hsub
  have hkeeps : m.Keeps (Relation.ReflTransGen m.LooksUp (Goal.ofRule alphabet i r)) m' :=
    keeps_of_subset hrules hrules' hsub.subset hfootprint
  have hmem {alphabet : Alphabet} {rules : List Rule} {m : Matcher}
      (hrules : ofRules alphabet rules = .ok m) {i : Nat} (hr : rules[i]? = some r) :
      Goal.ofRule alphabet i r ∈ m.goals := by
    rw [goals_of_ofRules hrules]
    exact List.mem_of_getElem? (by rw [getElem?_goalsOf, hr, Option.map_some])
  refine ⟨m', hrules', List.mem_iff_getElem?.mp (hfootprint i r hr .refl), fun i' hr' => ?_⟩
  obtain ⟨depth, hrun⟩ := (hkeeps.left.fresh_eq_ok_iff (hmem hrules hr)).mp hedit
  refine (hkeeps.right.fresh_eq_ok_iff (hmem hrules' hr')).mpr ⟨depth, ?_⟩
  refine hkeeps.evaluateUpTo (fun _ _ hreach hlooks => hreach.tail hlooks) .refl ?_ hrun
  rw [Goal.unplaced_ofRule, Goal.unplaced_ofRule]

/-- The second of these rules looks up the first one, and none looks up the third one. -/
theorem fresh_of_footprint_three_rules :
    ∃ alphabet m', alphabet = ⟨['★'], ['☆'], ' ', by decide, by decide⟩ ∧
      ofRules alphabet [⟨2, "abc", "yz"⟩, ⟨1, "ab", "x"⟩] = .ok m' ∧
      m'.fresh (Goal.ofRule alphabet 0 ⟨2, "abc", "yz"⟩) = .ok ⟨1, 0, "yz"⟩ := by
  obtain ⟨alphabet, m, first, second, third, halphabet, hrules, hgoals, hfirst, hsecond, hrun, hscreen,
      hscreen'⟩ :
      ∃ alphabet m first second third, alphabet = ⟨['★'], ['☆'], ' ', by decide, by decide⟩ ∧
        ofRules alphabet [⟨1, "ab", "x"⟩, ⟨2, "abc", "yz"⟩, ⟨3, "q", "w"⟩] = .ok m ∧
        m.goals = [first, second, third] ∧ Goal.ofRule alphabet 0 ⟨1, "ab", "x"⟩ = first ∧
        Goal.ofRule alphabet 1 ⟨2, "abc", "yz"⟩ = second ∧
        (m.evaluateUpTo 2 second).run = some (.ok ⟨1, 0, "yz"⟩) ∧
        (∃ shown, m.screenBefore first = .answer shown) ∧
        ∃ shown : Edit → List Char,
          m.screenBefore second = .ask first fun edit => .answer (shown edit) :=
    ⟨_, _, _, _, _, rfl, rfl, rfl, rfl, rfl, rfl, ⟨_, rfl⟩, ⟨_, rfl⟩⟩
  have hedit : m.fresh second = .ok ⟨1, 0, "yz"⟩ :=
    ((wellFormed_of_ofRules hrules).fresh_eq_ok_iff (by simp [hgoals])).mpr ⟨2, hrun⟩
  -- from the second rule, look-ups come to the first one and no further
  have hreach (goal : Goal) (h : Relation.ReflTransGen m.LooksUp second goal) :
      goal = second ∨ goal = first := by
    induction h with
    | refl => exact .inl rfl
    | tail _ hlooks ih =>
      unfold LooksUp at hlooks
      rcases ih with rfl | rfl
      · obtain ⟨shown, hask⟩ := hscreen'
        rw [hask] at hlooks
        cases hlooks with
        | now => exact .inr rfl
        | later _ hlooks => cases hlooks
      · obtain ⟨shown, hanswer⟩ := hscreen
        rw [hanswer] at hlooks
        cases hlooks
  have hsub : ([⟨2, "abc", "yz"⟩, ⟨1, "ab", "x"⟩] : List Rule).Subperm
      [⟨1, "ab", "x"⟩, ⟨2, "abc", "yz"⟩, ⟨3, "q", "w"⟩] :=
    ⟨[⟨1, "ab", "x"⟩, ⟨2, "abc", "yz"⟩], List.Perm.swap _ _ [], by simp⟩
  have hfootprint (j : Nat) (s : Rule)
      (hs : ([⟨1, "ab", "x"⟩, ⟨2, "abc", "yz"⟩, ⟨3, "q", "w"⟩] : List Rule)[j]? = some s)
      (h : Relation.ReflTransGen m.LooksUp second (Goal.ofRule alphabet j s)) :
      s ∈ ([⟨2, "abc", "yz"⟩, ⟨1, "ab", "x"⟩] : List Rule) := by
    have hcontext : s.context = "abc" ∨ s.context = "ab" := by
      rw [← Goal.context_ofRule alphabet j s]
      rcases hreach _ h with heq | heq
      · rw [heq, ← hsecond, Goal.context_ofRule]
        exact .inl rfl
      · rw [heq, ← hfirst, Goal.context_ofRule]
        exact .inr rfl
    have hmem := List.mem_of_getElem? hs
    simp only [List.mem_cons, List.not_mem_nil, or_false] at hmem
    rcases hmem with rfl | rfl | rfl
    · simp
    · simp
    · simp at hcontext
  rw [← hsecond] at hedit hfootprint
  obtain ⟨m', hrules', -, hfresh⟩ := fresh_of_footprint hrules rfl hedit hsub hfootprint
  exact ⟨alphabet, m', halphabet, hrules', hfresh 0 rfl⟩

end Matcher

end Shorthand
