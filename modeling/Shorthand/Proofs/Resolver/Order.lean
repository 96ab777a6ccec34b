import Shorthand.Proofs.Replay.Suffix
import Shorthand.Proofs.Resolver.Evaluation
import Mathlib.Data.List.Sort

/-!
# Evaluations do not depend on the order of rules

A goal knows the position of its rule, but no evaluation looks at that. And a look-up comes to its
candidates by the lengths of their contexts, wherever they stand in the dictionary. So matchers of the
same rules in different orders ask the same questions and find the same edits. Nor do goals that a
look-up does not come to matter for it: it does the same without them (`Matcher.Keeps`).

## Main statements

- `Matcher.Keeps.contenders`: what may fire on a screen stays if it is kept.
- `Matcher.Reorders.evaluateUpTo`: evaluations have the same outcome.
-/

namespace Shorthand

/-! ## Goals without positions -/

namespace Goal

/-- A goal without the position of its rule. -/
def unplaced (goal : Goal) : Goal := { goal with index := 0 }

variable {goal goal' : Goal}

theorem context_eq_of_unplaced (h : goal.unplaced = goal'.unplaced) :
    goal.context = goal'.context := by
  have hcontext : goal.unplaced.context = goal'.unplaced.context := by rw [h]
  exact hcontext

theorem unplaced_ofRule (alphabet : Alphabet) (index : Nat) (r : Rule) :
    (ofRule alphabet index r).unplaced = ofRule alphabet 0 r := by
  unfold ofRule
  split <;> rfl

/-- An edit does not depend on the position. -/
theorem edit_eq_of_unplaced (h : goal.unplaced = goal'.unplaced) (wordbreak : Char)
    (screen : List Char) : goal.edit wordbreak screen = goal'.edit wordbreak screen := by
  have hedit (g : Goal) : g.unplaced.edit wordbreak screen = g.edit wordbreak screen := rfl
  rw [← hedit goal, h, hedit goal']

end Goal

namespace Inquiry

/-- Asking for goals that differ in their positions only comes to the same if the replies do. -/
theorem run_askEach_congr {n : Type → Type} [Monad n] {reply reply' : Goal → n Edit}
    (hreply : ∀ goal goal', goal.unplaced = goal'.unplaced → reply goal = reply' goal')
    {goals goals' : List Goal} (h : goals.map Goal.unplaced = goals'.map Goal.unplaced)
    (found : Option Edit) : (askEach found goals).run reply = (askEach found goals').run reply' := by
  induction goals generalizing goals' found with
  | nil =>
    rw [List.map_nil, eq_comm, List.map_eq_nil_iff] at h
    rw [h]
    rfl
  | cons goal goals ih =>
    rw [List.map_cons] at h
    obtain ⟨goal', goals', rfl, hgoal, hgoals⟩ := List.map_eq_cons_iff.mp h.symm
    show (reply goal >>= fun edit => (askEach (some edit) goals).run reply) =
      reply' goal' >>= fun edit => (askEach (some edit) goals').run reply'
    rw [hreply goal goal' hgoal.symm]
    exact congrArg (reply' goal' >>= ·) (funext fun edit => ih hgoals.symm (some edit))

end Inquiry

namespace Matcher

variable {m m' : Matcher} {goal goal' : Goal}

theorem map_unplaced_goalsOf (alphabet : Alphabet) (rules : List Rule) :
    (goalsOf alphabet rules).map Goal.unplaced = rules.map (Goal.ofRule alphabet 0) := by
  refine List.ext_getElem? fun i => ?_
  simp only [List.getElem?_map, getElem?_goalsOf, Option.map_map]
  congr 1
  exact funext fun r => Goal.unplaced_ofRule alphabet i r

theorem WellFormed.mem_map_candidates_iff (h : m.WellFormed) {buffer : List Char} :
    goal ∈ (m.candidates buffer).map Goal.unplaced ↔
      goal ∈ m.goals.map Goal.unplaced ∧ goal.context ≠ "" ∧
        goal.context.toList.reverse <+: buffer := by
  simp only [List.mem_map, h.mem_candidates_iff]
  constructor
  · rintro ⟨g, ⟨hg, hne, hprefix⟩, rfl⟩
    exact ⟨⟨g, hg, rfl⟩, hne, hprefix⟩
  · rintro ⟨⟨g, hg, rfl⟩, hne, hprefix⟩
    exact ⟨g, ⟨hg, hne, hprefix⟩, rfl⟩

/-- Look-ups of two matchers come to the same goals in the same order if they come to the same goals. -/
theorem WellFormed.map_candidates_eq (h : m.WellFormed) (h' : m'.WellFormed) {buffer : List Char}
    (hmem : ∀ goal, goal ∈ (m.candidates buffer).map Goal.unplaced ↔
      goal ∈ (m'.candidates buffer).map Goal.unplaced) :
    (m.candidates buffer).map Goal.unplaced = (m'.candidates buffer).map Goal.unplaced := by
  -- both lists are ordered by the lengths of the contexts
  have hascending {m : Matcher} (h : m.WellFormed) :
      ((m.candidates buffer).map Goal.unplaced).Pairwise
        fun g g' => g.context.length < g'.context.length :=
    List.pairwise_map.mpr (h.pairwise_candidates buffer)
  have hasymm : Std.Asymm fun g g' : Goal => g.context.length < g'.context.length :=
    ⟨fun _ _ => Nat.lt_asymm⟩
  exact (hascending h).eq_of_mem_iff (hascending h') hmem

/-! ## Matchers with fewer rules -/

/-- Whether a matcher has no other goals than another one and keeps all that are `needed`, wherever these
stand. -/
structure Keeps (m : Matcher) (needed : Goal → Prop) (m' : Matcher) : Prop where
  /-- The first one was made of rules. -/
  left : m.WellFormed
  /-- So was the second one. -/
  right : m'.WellFormed
  /-- Both have one alphabet. -/
  alphabet : m.alphabet = m'.alphabet
  /-- Nothing is new. -/
  subset : m'.goals.map Goal.unplaced ⊆ m.goals.map Goal.unplaced
  /-- What is needed is still there. -/
  needed : ∀ goal ∈ m.goals, needed goal → goal.unplaced ∈ m'.goals.map Goal.unplaced

namespace Keeps

variable {needed : Goal → Prop} {buffer : List Char} {screen : Screen} (h : m.Keeps needed m')
include h

/-- A look-up does not come to other goals than before. -/
theorem subset_candidates :
    (m'.candidates buffer).map Goal.unplaced ⊆ (m.candidates buffer).map Goal.unplaced := by
  intro goal hgoal
  obtain ⟨hmem, hends⟩ := h.right.mem_map_candidates_iff.mp hgoal
  exact h.left.mem_map_candidates_iff.mpr ⟨h.subset hmem, hends⟩

/-- It comes to the same as before if all of that is needed. -/
theorem candidates (hneeded : ∀ goal ∈ m.candidates buffer, needed goal) :
    (m.candidates buffer).map Goal.unplaced = (m'.candidates buffer).map Goal.unplaced := by
  refine h.left.map_candidates_eq h.right fun _ => ⟨fun hgoal => ?_, fun hgoal => ?_⟩
  · obtain ⟨-, hends⟩ := h.left.mem_map_candidates_iff.mp hgoal
    obtain ⟨goal, hmem, rfl⟩ := List.mem_map.mp hgoal
    have hkept := h.needed goal (h.left.mem_candidates_iff.mp hmem).1 (hneeded goal hmem)
    exact h.right.mem_map_candidates_iff.mpr ⟨hkept, hends⟩
  · exact h.subset_candidates hgoal

/-- So does what may fire on a screen. -/
theorem contenders (hneeded : ∀ goal ∈ m.contenders screen, needed goal) :
    (m.contenders screen).map Goal.unplaced = (m'.contenders screen).map Goal.unplaced := by
  unfold Matcher.contenders at hneeded ⊢
  cases hleft : m.candidates screen.shown with
  | nil =>
    rw [hleft] at hneeded
    -- nothing that ended the text shown is new, so the keys are looked up again
    have hright := @subset_candidates _ _ _ screen.shown h
    rw [hleft, List.map_nil, List.subset_nil, List.map_eq_nil_iff] at hright
    rw [hright]
    exact h.candidates hneeded
  | cons goal goals =>
    rw [hleft] at hneeded
    have hshown := @candidates _ _ _ screen.shown h (by rwa [hleft])
    rw [hleft] at hshown
    obtain ⟨goal', goals', hright, -, -⟩ := List.map_eq_cons_iff.mp hshown.symm
    rw [hright] at hshown ⊢
    exact hshown

end Keeps

/-! ## Matchers of the same rules -/

/-- Whether two matchers have the same goals but for the positions. -/
structure Reorders (m m' : Matcher) : Prop where
  /-- The first one was made of rules. -/
  left : m.WellFormed
  /-- So was the second one. -/
  right : m'.WellFormed
  /-- Both have one alphabet. -/
  alphabet : m.alphabet = m'.alphabet
  /-- Without their positions, the goals are the same. -/
  goals : (m.goals.map Goal.unplaced).Perm (m'.goals.map Goal.unplaced)

namespace Reorders

variable (h : m.Reorders m')
include h

theorem symm : m'.Reorders m :=
  ⟨h.right, h.left, h.alphabet.symm, h.goals.symm⟩

/-- All goals are kept. -/
theorem keeps : m.Keeps (fun _ => True) m' where
  left := h.left
  right := h.right
  alphabet := h.alphabet
  subset := h.goals.symm.subset
  needed _ hgoal _ := h.goals.subset (List.mem_map_of_mem hgoal)

/-- What may fire on a screen is the same, in the same order. -/
theorem contenders (screen : Screen) :
    (m.contenders screen).map Goal.unplaced = (m'.contenders screen).map Goal.unplaced :=
  h.keeps.contenders fun _ _ => trivial

section

variable {n : Type → Type} [Monad n] [LawfulMonad n] {reply reply' : Goal → n Edit}
  (hreply : ∀ goal goal', goal.unplaced = goal'.unplaced → reply goal = reply' goal')
include hreply

theorem run_press (screen : Screen) (key : Char) :
    (m.press screen key).run reply = (m'.press screen key).run reply' := by
  rw [press, press, Inquiry.run_bind, Inquiry.run_bind, firing_eq_askEach, firing_eq_askEach,
    Inquiry.run_askEach_congr hreply (h.contenders _), h.alphabet]
  refine congrArg (_ >>= ·) (funext fun found => ?_)
  cases found <;> rfl

theorem run_replay (keys : List Char) :
    (m.replay keys).run reply = (m'.replay keys).run reply' := by
  have hfold (screen : Screen) :
      (keys.foldlM m.press screen).run reply = (keys.foldlM m'.press screen).run reply' := by
    induction keys generalizing screen with
    | nil => rfl
    | cons key keys ih =>
      rw [List.foldlM_cons, List.foldlM_cons, Inquiry.run_bind, Inquiry.run_bind,
        h.run_press hreply screen key]
      exact congrArg (_ >>= ·) (funext ih)
  exact hfold {}

theorem run_screenBefore (hgoal : goal.unplaced = goal'.unplaced) :
    (m.screenBefore goal).run reply = (m'.screenBefore goal').run reply' := by
  rw [screenBefore, screenBefore, Goal.context_eq_of_unplaced hgoal, Inquiry.run_bind,
    Inquiry.run_bind, h.run_replay hreply]
  rfl

end

/-- Evaluations have the same outcome. -/
theorem evaluateUpTo (depth : Nat) (hgoal : goal.unplaced = goal'.unplaced) :
    m.evaluateUpTo depth goal = m'.evaluateUpTo depth goal' := by
  induction depth generalizing goal goal' with
  | zero => rfl
  | succ depth ih =>
    rw [Matcher.evaluateUpTo, Matcher.evaluateUpTo,
      h.run_screenBefore (fun _ _ hgoal => ih hgoal) hgoal, h.alphabet]
    exact congrArg (_ >>= ·) (funext fun shown => congrArg _ (Goal.edit_eq_of_unplaced hgoal ..))

theorem evaluates_iff (hgoal : goal.unplaced = goal'.unplaced) {result : Except ResolveError Edit} :
    m.Evaluates goal result ↔ m'.Evaluates goal' result := by
  unfold Evaluates
  simp only [h.evaluateUpTo _ hgoal]

end Reorders

end Matcher

end Shorthand
