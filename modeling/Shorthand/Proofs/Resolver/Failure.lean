import Shorthand.Proofs.Resolver.Evaluation

/-!
# How resolutions fail

A resolver marks the goals that it works on as pending. When it is asked for a goal, it fails if the goal
is pending, if the screen does not allow an edit, or if a question fails: `Matcher.Fails` says so with
the list `held` of the goals that are pending before, and gives the list of those that the failure leaves
pending besides, the latest first.

The pending goals do not get in the way of an evaluation that succeeds, as long as each of them
cannot be resolved or waits for the goal (`Matcher.Harmless`). Then a failure is the only outcome there
is, and it says whether the evaluation by plain recursion fails too or never ends.

## Main statements

- `Matcher.Fails.not_resolvable_of_mem`: what a failure leaves pending cannot be resolved.
- `Matcher.Fails.unique`: there is one way to fail.
- `Matcher.Fails.evaluates`: errors other than cycles are those of the plain recursion.
- `Matcher.Fails.exists_transGen`: a cycle names a goal that depends on itself.
- `Matcher.Fails.mem_of_waitsFor`: what the goals left pending wait for is pending too.
-/

namespace Shorthand

theorem Goal.edit_ne_cycle (goal : Goal) (wordbreak : Char) (screen : List Char) (context : String) :
    goal.edit wordbreak screen ≠ .error (.cycle context) := by
  simp only [Goal.edit]
  split
  · simp
  · split <;> simp

namespace Matcher

/-- `m.Fails held goal trail e`: when the goals `held` are pending, the resolution of `goal` fails with `e`
and leaves those of `trail` pending as well. -/
inductive Fails (m : Matcher) :
    (held : List Goal) → Goal → (trail : List Goal) → ResolveError → Prop where
  | repeated {held : List Goal} {goal : Goal} :
      goal ∈ held → Fails m held goal [] (.cycle goal.context)
  -- the screen does not allow an edit
  | own {held : List Goal} {goal : Goal} {shown : List Char} {e : ResolveError} :
      goal ∉ held →
      (m.screenBefore goal).Yields (fun goal edit => m.Evaluates goal (.ok edit)) shown →
      m.attempt goal shown = .error e →
      Fails m held goal [goal] e
  -- a question fails
  | passed {held : List Goal} {goal goal' : Goal} {trail : List Goal} {e : ResolveError} :
      goal ∉ held → m.LooksUp goal goal' → Fails m (goal :: held) goal' trail e →
      Fails m held goal (trail ++ [goal]) e

/-- Whether each pending goal cannot be resolved or depends on a goal. -/
def Harmless (m : Matcher) (held : List Goal) (goal : Goal) : Prop :=
  ∀ pending ∈ held, ¬ m.Resolvable pending ∨ Relation.TransGen m.LooksUp pending goal

/-- Whether the evaluation of a goal comes to a question that cannot be resolved. -/
def WaitsFor (m : Matcher) (goal goal' : Goal) : Prop :=
  m.LooksUp goal goal' ∧ ¬ m.Resolvable goal'

variable {m : Matcher} {held trail trail' : List Goal} {goal goal' pending : Goal}
  {e e' : ResolveError} {context : String}

theorem harmless_nil : m.Harmless [] goal :=
  List.forall_mem_nil _

/-- While a question is answered, the goal that asked it is pending. -/
theorem Harmless.cons (h : m.Harmless held goal) (hlooks : m.LooksUp goal goal') :
    m.Harmless (goal :: held) goal' := by
  refine List.forall_mem_cons.mpr ⟨.inr (.single hlooks), fun pending hpending => ?_⟩
  exact (h pending hpending).imp_right fun hdepends => hdepends.tail hlooks

/-- A goal that can be resolved is not pending. -/
theorem Harmless.not_mem (h : m.Harmless held goal) (hgoal : m.Resolvable goal) : goal ∉ held := by
  intro hmem
  -- otherwise it would depend on itself, and its evaluation would not end
  obtain ⟨edit, hedit⟩ := id hgoal
  exact (h goal hmem).elim (fun hnot => hnot hgoal) hedit.not_transGen

/-! ## Failures -/

namespace Fails

/-- What fails cannot be resolved. -/
theorem not_resolvable (h : m.Fails held goal trail e) (hheld : m.Harmless held goal) :
    ¬ m.Resolvable goal := by
  induction h with
  -- a pending goal is no obstacle to one that can be resolved
  | repeated hmem => exact fun hgoal => hheld.not_mem hgoal hmem
  -- the evaluation fails as the resolution does
  | own _ hyields hattempt =>
    rintro ⟨edit, hedit⟩
    cases hedit.unique (evaluates_error_iff.mpr (.inl ⟨_, hyields, hattempt⟩))
  -- a goal that can be resolved has questions that can
  | passed _ hlooks _ ih => exact fun hgoal => ih (hheld.cons hlooks) (hlooks.resolvable hgoal)

/-- Nor can what a failure leaves pending. -/
theorem not_resolvable_of_mem (h : m.Fails held goal trail e) (hheld : m.Harmless held goal)
    (hpending : pending ∈ trail) : ¬ m.Resolvable pending := by
  induction h with
  | repeated => cases hpending
  | own hmem hyields hattempt =>
    obtain rfl := List.mem_singleton.mp hpending
    exact not_resolvable (.own hmem hyields hattempt) hheld
  | passed hmem hlooks h ih =>
    rcases List.mem_append.mp hpending with hpending | hpending
    · exact ih (hheld.cons hlooks) hpending
    · obtain rfl := List.mem_singleton.mp hpending
      exact not_resolvable (.passed hmem hlooks h) hheld

theorem mem_append (h : m.Fails held goal trail e) : goal ∈ trail ++ held := by
  cases h with
  | repeated hmem => exact hmem
  | own => exact List.mem_cons_self ..
  | passed => simp

end Fails

/-- A goal waits for one other at most. -/
theorem WaitsFor.unique {goal₁ goal₂ : Goal} (h₁ : m.WaitsFor goal goal₁)
    (h₂ : m.WaitsFor goal goal₂) : goal₁ = goal₂ := by
  rcases h₁.1.eq_or_exists_answer (fun _ _ => id) rightUnique_evaluates h₂.1 with heq | h | h
  · exact heq
  · exact absurd h h₁.2
  · exact absurd h h₂.2

namespace Fails

/-- There is one way to fail. -/
theorem unique (h : m.Fails held goal trail e) (h' : m.Fails held goal trail' e')
    (hheld : m.Harmless held goal) : trail = trail' ∧ e = e' := by
  induction h generalizing trail' e' with
  | repeated hmem =>
    cases h' with
    | repeated => exact ⟨rfl, rfl⟩
    | own hnot => exact absurd hmem hnot
    | passed hnot => exact absurd hmem hnot
  | own hnot hyields hattempt =>
    cases h' with
    | repeated hmem => exact absurd hmem hnot
    | own _ hyields' hattempt' =>
      obtain rfl := Inquiry.Yields.unique rightUnique_evaluates hyields hyields'
      exact ⟨rfl, Except.error.inj (hattempt.symm.trans hattempt')⟩
    | passed _ hlooks h' =>
      -- all questions got answers
      have hanswer := hyields.exists_answer (fun _ _ => id) rightUnique_evaluates hlooks
      exact absurd hanswer (h'.not_resolvable (hheld.cons hlooks))
  | passed hnot hlooks h ih =>
    cases h' with
    | repeated hmem => exact absurd hmem hnot
    | own _ hyields' _ =>
      have hanswer := hyields'.exists_answer (fun _ _ => id) rightUnique_evaluates hlooks
      exact absurd hanswer (h.not_resolvable (hheld.cons hlooks))
    | passed _ hlooks' h' =>
      -- both failed at a question that cannot be resolved, and there is one such question at most
      have hwaits := And.intro hlooks (h.not_resolvable (hheld.cons hlooks))
      have hwaits' := And.intro hlooks' (h'.not_resolvable (hheld.cons hlooks'))
      obtain rfl := WaitsFor.unique hwaits hwaits'
      obtain ⟨rfl, rfl⟩ := ih h' (hheld.cons hlooks)
      exact ⟨rfl, rfl⟩

/-- Errors other than cycles are those of the plain recursion. -/
theorem evaluates (h : m.Fails held goal trail e) (he : ∀ context, e ≠ .cycle context) :
    m.Evaluates goal (.error e) := by
  induction h with
  | repeated => exact absurd rfl (he _)
  | own _ hyields hattempt => exact evaluates_error_iff.mpr (.inl ⟨_, hyields, hattempt⟩)
  | passed _ hlooks _ ih => exact evaluates_error_iff.mpr (.inr ⟨_, hlooks, ih he⟩)

/-- A cycle names a goal that depends on itself, if all pending goals depend on the goal asked for. -/
theorem exists_transGen (h : m.Fails held goal trail (.cycle context))
    (hheld : ∀ pending ∈ held, Relation.TransGen m.LooksUp pending goal) :
    ∃ goal', goal'.context = context ∧ Relation.ReflTransGen m.LooksUp goal goal' ∧
      Relation.TransGen m.LooksUp goal' goal' := by
  -- the error is one of three, and only cycles are left to look at
  generalize he : ResolveError.cycle context = e at h
  induction h with
  | repeated hmem =>
    cases he
    exact ⟨_, rfl, .refl, hheld _ hmem⟩
  | own _ _ hattempt =>
    subst he
    exact (Goal.edit_ne_cycle _ _ _ _ hattempt).elim
  | passed _ hlooks _ ih =>
    -- the goal is pending below, and the question is one that it depends on
    obtain ⟨goal', hcontext, hreach, hcycle⟩ := ih (List.forall_mem_cons.mpr
      ⟨.single hlooks, fun pending hpending => (hheld pending hpending).tail hlooks⟩) he
    exact ⟨goal', hcontext, .head hlooks hreach, hcycle⟩

/-- What the goals left pending wait for is pending too. -/
theorem mem_of_waitsFor (h : m.Fails held goal trail e) (hheld : m.Harmless held goal)
    (hpending : pending ∈ trail) (hwaits : m.WaitsFor pending goal') : goal' ∈ trail ++ held := by
  induction h with
  | repeated => cases hpending
  -- all questions got answers, so this goal waits for none
  | own _ hyields _ =>
    obtain rfl := List.mem_singleton.mp hpending
    exact absurd (hyields.exists_answer (fun _ _ => id) rightUnique_evaluates hwaits.1) hwaits.2
  | passed _ hlooks h ih =>
    rcases List.mem_append.mp hpending with hpending | hpending
    · simpa using ih (hheld.cons hlooks) hpending
    · obtain rfl := List.mem_singleton.mp hpending
      -- it waits for the question that failed, which is pending itself
      obtain rfl := WaitsFor.unique ⟨hlooks, h.not_resolvable (hheld.cons hlooks)⟩ hwaits
      simpa using h.mem_append

end Fails

theorem not_evaluates_of_reflTransGen (hreach : Relation.ReflTransGen m.LooksUp goal goal')
    (hcycle : Relation.TransGen m.LooksUp goal' goal') (result : Except ResolveError Edit) :
    ¬ m.Evaluates goal result := by
  induction hreach using Relation.ReflTransGen.head_induction_on generalizing result with
  | refl => exact fun h => h.not_transGen hcycle
  | head hlooks _ ih =>
    intro h
    obtain ⟨result', h'⟩ := hlooks.exists_evaluates h
    exact ih result' h'

end Matcher

end Shorthand
