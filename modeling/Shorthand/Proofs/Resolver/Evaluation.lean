import Shorthand.Proofs.Replay
import Mathlib.Logic.Relation

/-!
# Evaluating goals by plain recursion

What is the edit of a goal? `Matcher.evaluateUpTo` says so without remembering anything: every question
of a replay is answered by evaluating its goal from scratch, and nothing stops questions that lead
round in a circle but the depth that they are allowed. An evaluation comes to an end if some depth is
enough (`Matcher.Evaluates`); otherwise it would go on for ever.

## Main statements

- `Matcher.Evaluates.unique`: the depth does not matter where it is enough.
- `Matcher.evaluates_ok_iff`, `Matcher.evaluates_error_iff`: how evaluations succeed and fail.
- `Matcher.LooksUp.exists_evaluates`: an evaluation that ends has evaluations that end below it.
- `Matcher.Evaluates.not_transGen`: the evaluation of a goal that depends on itself does not end.
-/

namespace Shorthand

/-! ## Runs that may fail -/

namespace Inquiry

variable {α : Type} {x : Inquiry α} {a : α} {e : ResolveError}
  {reply : Goal → ExceptT ResolveError Option Edit}

/-- A run succeeds if all questions are answered on the way. -/
theorem run_eq_ok_iff :
    (x.run reply).run = some (.ok a) ↔
      x.Yields (fun goal edit => (reply goal).run = some (.ok edit)) a := by
  induction x with
  | answer b =>
    constructor
    · intro h
      cases h
      exact .answer _
    · intro h
      cases h
      rfl
  | ask goal next ih =>
    rw [run, ExceptT.run_bind]
    constructor
    · intro h
      -- the first question has to get an edit, and the rest goes on with it
      rcases hreply : (reply goal).run with _ | (e | edit) <;> rw [hreply] at h
      · cases h
      · cases h
      · exact .ask hreply ((ih edit).mp h)
    · intro h
      cases h with
      | ask hreply h =>
        rw [hreply]
        exact (ih _).mpr h

/-- A run fails if a question fails that it comes to. -/
theorem run_eq_error_iff :
    (x.run reply).run = some (.error e) ↔
      ∃ goal, x.Asks (fun goal edit => (reply goal).run = some (.ok edit)) goal ∧
        (reply goal).run = some (.error e) := by
  induction x with
  | answer b =>
    constructor
    · intro h
      cases h
    · rintro ⟨goal, hasks, -⟩
      cases hasks
  | ask goal next ih =>
    rw [run, ExceptT.run_bind]
    constructor
    · intro h
      rcases hreply : (reply goal).run with _ | (e' | edit) <;> rw [hreply] at h
      · cases h
      -- the first question fails, or one after it
      · cases h
        exact ⟨goal, .now goal next, hreply⟩
      · obtain ⟨goal', hasks, herror⟩ := (ih edit).mp h
        exact ⟨goal', .later hreply hasks, herror⟩
    · rintro ⟨goal', hasks, herror⟩
      cases hasks with
      | now =>
        rw [herror]
        rfl
      | later hreply hasks =>
        rw [hreply]
        exact (ih _).mpr ⟨goal', hasks, herror⟩

end Inquiry

namespace Matcher

/-! ## Plain recursion -/

/-- The edit of a goal by plain recursion, if questions are nested up to `depth` only. -/
def evaluateUpTo (m : Matcher) : (depth : Nat) → Goal → ExceptT ResolveError Option Edit
  | 0, _ => ExceptT.mk none
  | depth + 1, goal => do
    let shown ← (m.screenBefore goal).run (m.evaluateUpTo depth)
    goal.edit m.alphabet.wordbreak (stripWordbreak m.alphabet.wordbreak shown)

/-- Whether the evaluation of a goal ends with a result. -/
def Evaluates (m : Matcher) (goal : Goal) (result : Except ResolveError Edit) : Prop :=
  ∃ depth, (m.evaluateUpTo depth goal).run = some result

/-- Whether the evaluation of a goal ends with an edit. -/
def Resolvable (m : Matcher) (goal : Goal) : Prop :=
  ∃ edit, m.Evaluates goal (.ok edit)

/-- Whether the evaluation of a goal comes to a question for another. -/
def LooksUp (m : Matcher) (goal goal' : Goal) : Prop :=
  (m.screenBefore goal).Asks (fun goal edit => m.Evaluates goal (.ok edit)) goal'

/-- Whether a goal, on a screen where it fires, has an edit or fails. -/
def attempt (m : Matcher) (goal : Goal) (shown : List Char) : Except ResolveError Edit :=
  goal.edit m.alphabet.wordbreak (stripWordbreak m.alphabet.wordbreak shown)

variable {m : Matcher} {depth depth' : Nat} {goal goal' : Goal} {edit : Edit} {e : ResolveError}
  {result result' : Except ResolveError Edit}

/-- One level of an evaluation succeeds if the replay ends and its screen allows an edit. -/
theorem evaluateUpTo_succ_eq_ok_iff :
    (m.evaluateUpTo (depth + 1) goal).run = some (.ok edit) ↔
      ∃ shown, (m.screenBefore goal).Yields
        (fun goal edit => (m.evaluateUpTo depth goal).run = some (.ok edit)) shown ∧
          m.attempt goal shown = .ok edit := by
  rw [evaluateUpTo, ExceptT.run_bind]
  constructor
  · intro h
    match hrun : ((m.screenBefore goal).run (m.evaluateUpTo depth)).run with
    | none => rw [hrun] at h; cases h
    | some (.error e) => rw [hrun] at h; cases h
    | some (.ok shown) =>
      rw [hrun] at h
      exact ⟨shown, Inquiry.run_eq_ok_iff.mp hrun, Option.some.inj h⟩
  · rintro ⟨shown, hyields, hedit⟩
    rw [Inquiry.run_eq_ok_iff.mpr hyields]
    exact congrArg some hedit

/-- It fails if a question does, or the screen does not allow an edit. -/
theorem evaluateUpTo_succ_eq_error_iff :
    (m.evaluateUpTo (depth + 1) goal).run = some (.error e) ↔
      (∃ shown, (m.screenBefore goal).Yields
        (fun goal edit => (m.evaluateUpTo depth goal).run = some (.ok edit)) shown ∧
          m.attempt goal shown = .error e) ∨
        ∃ goal', (m.screenBefore goal).Asks
          (fun goal edit => (m.evaluateUpTo depth goal).run = some (.ok edit)) goal' ∧
            (m.evaluateUpTo depth goal').run = some (.error e) := by
  rw [evaluateUpTo, ExceptT.run_bind, ← Inquiry.run_eq_error_iff]
  constructor
  · intro h
    match hrun : ((m.screenBefore goal).run (m.evaluateUpTo depth)).run with
    | none => rw [hrun] at h; cases h
    | some (.error e') =>
      rw [hrun] at h
      cases h
      exact .inr rfl
    | some (.ok shown) =>
      rw [hrun] at h
      exact .inl ⟨shown, Inquiry.run_eq_ok_iff.mp hrun, Option.some.inj h⟩
  · rintro (⟨shown, hyields, hedit⟩ | herror)
    · rw [Inquiry.run_eq_ok_iff.mpr hyields]
      exact congrArg some hedit
    · rw [herror]
      rfl

/-! ## The depth does not matter -/

/-- More depth does not change a result. -/
theorem evaluateUpTo_succ (h : (m.evaluateUpTo depth goal).run = some result) :
    (m.evaluateUpTo (depth + 1) goal).run = some result := by
  induction depth generalizing goal result with
  | zero => cases h
  | succ depth ih =>
    -- all answers used one level below are there with one more level
    have himp : ∀ goal edit, (m.evaluateUpTo depth goal).run = some (.ok edit) →
        (m.evaluateUpTo (depth + 1) goal).run = some (.ok edit) := fun _ _ => ih
    cases result with
    | ok edit =>
      obtain ⟨shown, hyields, hedit⟩ := evaluateUpTo_succ_eq_ok_iff.mp h
      exact evaluateUpTo_succ_eq_ok_iff.mpr ⟨shown, hyields.imp himp, hedit⟩
    | error e =>
      rcases evaluateUpTo_succ_eq_error_iff.mp h with ⟨shown, hyields, hedit⟩ | ⟨goal', hasks, herror⟩
      · exact evaluateUpTo_succ_eq_error_iff.mpr (.inl ⟨shown, hyields.imp himp, hedit⟩)
      · exact evaluateUpTo_succ_eq_error_iff.mpr (.inr ⟨goal', hasks.imp himp, ih herror⟩)

theorem evaluateUpTo_of_le (hle : depth ≤ depth') (h : (m.evaluateUpTo depth goal).run = some result) :
    (m.evaluateUpTo depth' goal).run = some result := by
  induction hle with
  | refl => exact h
  | step _ ih => exact evaluateUpTo_succ ih

theorem Evaluates.unique (h : m.Evaluates goal result) (h' : m.Evaluates goal result') :
    result = result' := by
  obtain ⟨depth, h⟩ := h
  obtain ⟨depth', h'⟩ := h'
  have h := evaluateUpTo_of_le (Nat.le_max_left depth depth') h
  have h' := evaluateUpTo_of_le (Nat.le_max_right depth depth') h'
  exact Option.some.inj (h.symm.trans h')

theorem rightUnique_evaluates :
    Relator.RightUnique fun goal edit => m.Evaluates goal (.ok edit) :=
  fun _ _ _ h h' => Except.ok.inj (h.unique h')

/-! ## How evaluations end -/

section

variable {α : Type} {x : Inquiry α} {a : α}

theorem exists_depth_of_yields (h : x.Yields (fun goal edit => m.Evaluates goal (.ok edit)) a) :
    ∃ depth, x.Yields (fun goal edit => (m.evaluateUpTo depth goal).run = some (.ok edit)) a := by
  refine Inquiry.Yields.exists_bound (fun goal edit depth depth' hle hrun => ?_) h
  exact evaluateUpTo_of_le hle hrun

theorem exists_depth_of_asks (h : x.Asks (fun goal edit => m.Evaluates goal (.ok edit)) goal) :
    ∃ depth, x.Asks (fun goal edit => (m.evaluateUpTo depth goal).run = some (.ok edit)) goal := by
  refine Inquiry.Asks.exists_bound (fun goal edit depth depth' hle hrun => ?_) h
  exact evaluateUpTo_of_le hle hrun

end

/-- An evaluation succeeds if those of its questions do and the screen then allows an edit. -/
theorem evaluates_ok_iff :
    m.Evaluates goal (.ok edit) ↔
      ∃ shown, (m.screenBefore goal).Yields (fun goal edit => m.Evaluates goal (.ok edit)) shown ∧
        m.attempt goal shown = .ok edit := by
  constructor
  · rintro ⟨depth, h⟩
    cases depth with
    | zero => cases h
    | succ depth =>
      obtain ⟨shown, hyields, hedit⟩ := evaluateUpTo_succ_eq_ok_iff.mp h
      exact ⟨shown, hyields.imp fun _ _ h => ⟨depth, h⟩, hedit⟩
  · rintro ⟨shown, hyields, hedit⟩
    obtain ⟨depth, hyields⟩ := exists_depth_of_yields hyields
    exact ⟨depth + 1, evaluateUpTo_succ_eq_ok_iff.mpr ⟨shown, hyields, hedit⟩⟩

/-- An evaluation fails if that of a question does, or the screen does not allow an edit. -/
theorem evaluates_error_iff :
    m.Evaluates goal (.error e) ↔
      (∃ shown, (m.screenBefore goal).Yields (fun goal edit => m.Evaluates goal (.ok edit)) shown ∧
        m.attempt goal shown = .error e) ∨
        ∃ goal', m.LooksUp goal goal' ∧ m.Evaluates goal' (.error e) := by
  constructor
  · rintro ⟨depth, h⟩
    cases depth with
    | zero => cases h
    | succ depth =>
      rcases evaluateUpTo_succ_eq_error_iff.mp h with ⟨shown, hyields, hedit⟩ | ⟨goal', hasks, herror⟩
      · exact .inl ⟨shown, hyields.imp fun _ _ h => ⟨depth, h⟩, hedit⟩
      · exact .inr ⟨goal', hasks.imp fun _ _ h => ⟨depth, h⟩, depth, herror⟩
  · rintro (⟨shown, hyields, hedit⟩ | ⟨goal', hasks, depth', herror⟩)
    · obtain ⟨depth, hyields⟩ := exists_depth_of_yields hyields
      exact ⟨depth + 1, evaluateUpTo_succ_eq_error_iff.mpr (.inl ⟨shown, hyields, hedit⟩)⟩
    · obtain ⟨depth, hasks⟩ := exists_depth_of_asks hasks
      -- deep enough for the answers before the question that fails, and for that one
      refine ⟨max depth depth' + 1, evaluateUpTo_succ_eq_error_iff.mpr (.inr ⟨goal', ?_, ?_⟩)⟩
      · exact hasks.imp fun _ _ => evaluateUpTo_of_le (Nat.le_max_left ..)
      · exact evaluateUpTo_of_le (Nat.le_max_right ..) herror

/-! ## Questions of evaluations that end -/

/-- Where an evaluation ends, those of its questions end with less depth. -/
theorem LooksUp.exists_evaluateUpTo (h : m.LooksUp goal goal')
    (hrun : (m.evaluateUpTo (depth + 1) goal).run = some result) :
    ∃ result', (m.evaluateUpTo depth goal').run = some result' := by
  have himp (goal : Goal) (edit : Edit) (h : (m.evaluateUpTo depth goal).run = some (.ok edit)) :
      m.Evaluates goal (.ok edit) := ⟨depth, h⟩
  -- if nothing failed before, the question got an answer
  have hanswered {shown : List Char} (hyields : (m.screenBefore goal).Yields
      (fun goal edit => (m.evaluateUpTo depth goal).run = some (.ok edit)) shown) :
      ∃ result', (m.evaluateUpTo depth goal').run = some result' := by
    obtain ⟨edit, hedit⟩ := hyields.exists_answer himp rightUnique_evaluates h
    exact ⟨_, hedit⟩
  cases result with
  | ok edit =>
    obtain ⟨shown, hyields, -⟩ := evaluateUpTo_succ_eq_ok_iff.mp hrun
    exact hanswered hyields
  | error e =>
    rcases evaluateUpTo_succ_eq_error_iff.mp hrun with ⟨shown, hyields, -⟩ | ⟨failed, hasks, herror⟩
    · exact hanswered hyields
    -- the question is the one that failed, or one of the two comes after the other
    · rcases hasks.eq_or_exists_answer himp rightUnique_evaluates h with rfl | ⟨edit, hedit⟩ | hedit
      · exact ⟨_, herror⟩
      · cases hedit.unique ⟨depth, herror⟩
      · obtain ⟨edit, hedit⟩ := hedit
        exact ⟨_, hedit⟩

theorem LooksUp.exists_evaluates (h : m.LooksUp goal goal') (hrun : m.Evaluates goal result) :
    ∃ result', m.Evaluates goal' result' := by
  obtain ⟨depth, hrun⟩ := hrun
  cases depth with
  | zero => cases hrun
  | succ depth =>
    obtain ⟨result', hrun'⟩ := h.exists_evaluateUpTo hrun
    exact ⟨result', depth, hrun'⟩

/-- Where an evaluation succeeds, so do those of its questions. -/
theorem LooksUp.resolvable (h : m.LooksUp goal goal') (hgoal : m.Resolvable goal) :
    m.Resolvable goal' := by
  obtain ⟨edit, hedit⟩ := hgoal
  obtain ⟨shown, hyields, -⟩ := evaluates_ok_iff.mp hedit
  exact hyields.exists_answer (fun _ _ => id) rightUnique_evaluates h

/-- Where an evaluation ends, those of all goals that it depends on end with less depth. -/
theorem exists_evaluateUpTo_of_transGen (h : Relation.TransGen m.LooksUp goal goal')
    (hrun : (m.evaluateUpTo (depth + 1) goal).run = some result) :
    ∃ result', (m.evaluateUpTo depth goal').run = some result' := by
  induction h with
  | single h => exact h.exists_evaluateUpTo hrun
  | tail _ h ih =>
    obtain ⟨result', hrun'⟩ := ih
    exact h.exists_evaluateUpTo (evaluateUpTo_succ hrun')

/-- The evaluation of a goal that depends on itself does not end. -/
theorem Evaluates.not_transGen (h : m.Evaluates goal result) :
    ¬ Relation.TransGen m.LooksUp goal goal := by
  intro hcycle
  obtain ⟨depth, h⟩ := h
  -- an infinite descent: a goal that depends on itself would end with ever less depth
  induction depth generalizing result with
  | zero => cases h
  | succ depth ih =>
    obtain ⟨result', h'⟩ := exists_evaluateUpTo_of_transGen hcycle h
    exact ih h'

end Matcher

end Shorthand
