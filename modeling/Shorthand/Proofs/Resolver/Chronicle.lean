import Shorthand.Proofs.Resolver.Memo

/-!
# Resolvers that keep a chronicle

A result and a log do not tell what was remembered in between. So that this can be spoken of, the
same program is run with a `Chronicle`, which keeps every memo that another one replaced. It makes no
difference to the results and to what is remembered in the end.

## Main statements

- `Chronicle.forgets_chronicleUpTo`: a resolution with a chronicle is one without it.
- `Matcher.resolveEach_eq`, `Matcher.run_resolveAll_eq`: the results and the logs are the same.
-/

namespace Shorthand

/-! ## Chronicles -/

/-- What a resolver remembers, and what it remembered before. -/
structure Chronicle where
  memo : Memo := {}
  /-- The earlier memos, the latest first. -/
  past : List Memo := []

/-- A computation of a resolver that keeps a chronicle. -/
abbrev ChronicleM := ExceptT ResolveError (StateM Chronicle)

/-- All memos that there were, the latest first. -/
def Chronicle.memos (c : Chronicle) : List Memo :=
  c.memo :: c.past

/-- Changes what is remembered. -/
def Chronicle.change (c : Chronicle) (f : Memo → Memo) : Chronicle :=
  ⟨f c.memo, c.memos⟩

/-- The memo when the edit of a goal becomes known. -/
def Memo.settle (memo : Memo) (goal : Goal) (screen : List Char) (edit : Edit) : Memo :=
  (memo.report (.resolved goal.context (String.ofList screen) edit.backspaces edit.output)).mark goal
    (.settled edit)

namespace Matcher

/-- `Matcher.workOut` with a chronicle. -/
def chronicleWorkOut (m : Matcher) (reply : Goal → ChronicleM Edit) (goal : Goal) :
    ChronicleM Edit := do
  modify (·.change (·.mark goal .pending))
  let shown ← (m.screenBefore goal).run reply
  let screen := stripWordbreak m.alphabet.wordbreak shown
  let edit ← goal.edit m.alphabet.wordbreak screen
  modify (·.change (·.settle goal screen edit))
  return edit

/-- `Matcher.resolveUpTo` with a chronicle. -/
def chronicleUpTo (m : Matcher) : (depth : Nat) → Goal → ChronicleM Edit
  | 0, goal => throw (.cycle goal.context)
  | depth + 1, goal => do
    match (← get).memo.stage? goal with
    | some (.settled edit) => return edit
    | some .pending => throw (.cycle goal.context)
    | none => m.chronicleWorkOut (m.chronicleUpTo depth) goal

/-- `Matcher.resolveEach` with a chronicle. -/
def chronicleEach (m : Matcher) (calls : List Goal) :
    List (Except ResolveError Edit) × Chronicle :=
  (calls.mapM fun goal => (m.chronicleUpTo m.maxDepth goal).run).run {}

/-- `Matcher.resolveAll` with a chronicle. -/
def chronicleAll (m : Matcher) : Except ResolveError (List Edit) × Chronicle :=
  (m.goals.mapM (m.chronicleUpTo m.maxDepth)).run.run {}

end Matcher

/-! ## Without the chronicle -/

/-- The result of a computation and the chronicle after it. -/
def ChronicleM.outcome {α : Type} (x : ChronicleM α) (c : Chronicle) :
    Except ResolveError α × Chronicle :=
  x.run.run c

namespace ChronicleM

variable {α β : Type} {x : ChronicleM α} {f : α → ChronicleM β} {c c' : Chronicle} {a : α}
  {e : ResolveError}

@[simp] theorem outcome_get (c : Chronicle) :
    outcome (get : ChronicleM Chronicle) c = (.ok c, c) := rfl

@[simp] theorem outcome_modify (f : Chronicle → Chronicle) (c : Chronicle) :
    outcome (modify f : ChronicleM Unit) c = (.ok (), f c) := rfl

theorem outcome_bind_of_ok (h : outcome x c = (.ok a, c')) :
    outcome (x >>= f) c = (f a).outcome c' :=
  run_bind_of_ok h

theorem outcome_bind_of_error (h : outcome x c = (.error e, c')) :
    outcome (x >>= f) c = (.error e, c') :=
  run_bind_of_error h

end ChronicleM

namespace Chronicle

variable {α β : Type} {m : Matcher}

/-- Whether a computation is another one that keeps a chronicle. -/
def Forgets (x : StateM Chronicle α) (y : StateM Memo α) : Prop :=
  ∀ c : Chronicle, ((x.run c).1, (x.run c).2.memo) = y.run c.memo

theorem Forgets.bind {x : StateM Chronicle α} {y : StateM Memo α} {f : α → StateM Chronicle β}
    {g : α → StateM Memo β} (h : Forgets x y) (hf : ∀ a, Forgets (f a) (g a)) :
    Forgets (x >>= f) (y >>= g) := by
  intro c
  rw [StateT.run_bind, StateT.run_bind, ← h c]
  exact hf (x.run c).1 (x.run c).2

theorem Forgets.mapM {f : Goal → StateM Chronicle α} {g : Goal → StateM Memo α}
    (h : ∀ goal, Forgets (f goal) (g goal)) (goals : List Goal) :
    Forgets (goals.mapM f) (goals.mapM g) := by
  induction goals with
  | nil => exact fun _ => rfl
  | cons goal goals ih =>
    rw [List.mapM_cons, List.mapM_cons]
    exact (h goal).bind fun _ => ih.bind fun _ _ => rfl

theorem Forgets.outcome_eq {x : ChronicleM α} {y : ResolveM α} (h : Forgets x.run y.run)
    (c : Chronicle) : ((x.outcome c).1, (x.outcome c).2.memo) = y.outcome c.memo :=
  h c

/-- An error ends both computations. -/
theorem Forgets.bind_run {x : ChronicleM α} {y : ResolveM α} {f : α → ChronicleM β}
    {g : α → ResolveM β} (h : Forgets x.run y.run) (hf : ∀ a, Forgets (f a).run (g a).run) :
    Forgets (x >>= f).run (y >>= g).run := by
  rw [ExceptT.run_bind, ExceptT.run_bind]
  refine h.bind fun result => ?_
  cases result with
  | ok a => exact hf a
  | error e => exact fun _ => rfl

theorem forgets_run {reply : Goal → ChronicleM Edit} {reply' : Goal → ResolveM Edit}
    (h : ∀ goal, Forgets (reply goal).run (reply' goal).run) (x : Inquiry α) :
    Forgets (x.run reply).run (x.run reply').run := by
  induction x with
  | answer a => exact fun _ => rfl
  | ask goal next ih => exact (h goal).bind_run ih

theorem forgets_chronicleWorkOut {reply : Goal → ChronicleM Edit} {reply' : Goal → ResolveM Edit}
    (h : ∀ goal, Forgets (reply goal).run (reply' goal).run) (goal : Goal) :
    Forgets (m.chronicleWorkOut reply goal).run (m.workOut reply' goal).run := by
  refine Forgets.bind_run (fun _ => rfl) fun _ => (forgets_run h _).bind_run fun shown => ?_
  exact Forgets.bind_run (fun _ => rfl) fun _ => Forgets.bind_run (fun _ => rfl) fun _ _ => rfl

/-- The chronicle makes no difference to the resolver. -/
theorem forgets_chronicleUpTo (m : Matcher) (depth : Nat) (goal : Goal) :
    Forgets (m.chronicleUpTo depth goal).run (m.resolveUpTo depth goal).run := by
  induction depth generalizing goal with
  | zero => exact fun _ => rfl
  | succ depth ih =>
    intro c
    show ((ChronicleM.outcome _ c).1, (ChronicleM.outcome _ c).2.memo) = ResolveM.outcome _ c.memo
    rw [Matcher.chronicleUpTo, Matcher.resolveUpTo,
      ChronicleM.outcome_bind_of_ok (ChronicleM.outcome_get ..),
      ResolveM.outcome_bind_of_ok (ResolveM.outcome_get ..)]
    -- both look at the same memo
    cases c.memo.stage? goal with
    | none => exact forgets_chronicleWorkOut ih goal c
    | some stage => cases stage <;> rfl

end Chronicle

/-! ## Calls of a resolver -/

namespace Inquiry

variable {goals : List Goal}

/-- Asks for goals one after the other and keeps all edits. -/
def askAll (goals : List Goal) : Inquiry (List Edit) :=
  goals.mapM fun goal => ask goal answer

theorem askAll_cons (goal : Goal) (goals : List Goal) :
    askAll (goal :: goals) =
      ask goal fun edit => askAll goals >>= fun edits => answer (edit :: edits) := by
  rw [askAll, List.mapM_cons]
  rfl

theorem run_askAll {n : Type → Type} [Monad n] [LawfulMonad n] (reply : Goal → n Edit)
    (goals : List Goal) : (askAll goals).run reply = goals.mapM reply := by
  induction goals with
  | nil => rfl
  | cons goal goals ih =>
    rw [askAll_cons, run, List.mapM_cons]
    refine congrArg (reply goal >>= ·) (funext fun edit => ?_)
    rw [run_bind, ih]
    rfl

theorem within_askAll {goals' : List Goal} (h : ∀ goal ∈ goals, goal ∈ goals') :
    (askAll goals).Within goals' := by
  induction goals with
  | nil => trivial
  | cons goal goals ih =>
    obtain ⟨hgoal, h⟩ := List.forall_mem_cons.mp h
    rw [askAll_cons]
    exact ⟨hgoal, fun edit => (ih h).bind fun _ => trivial⟩

/-- If there are answers for all of them, none is left out. -/
theorem asks_askAll {answers : Goal → Edit → Prop} (h : ∀ goal ∈ goals, ∃ edit, answers goal edit) :
    ∀ goal ∈ goals, (askAll goals).Asks answers goal := by
  induction goals with
  | nil => exact List.forall_mem_nil _
  | cons goal goals ih =>
    obtain ⟨⟨edit, hedit⟩, h⟩ := List.forall_mem_cons.mp h
    rw [askAll_cons]
    refine List.forall_mem_cons.mpr ⟨.now _ _, fun goal' hgoal' => ?_⟩
    exact .later hedit ((ih h goal' hgoal').bind_left _)

end Inquiry

namespace Matcher

theorem chronicleAll_eq (m : Matcher) : m.chronicleAll =
    ChronicleM.outcome ((Inquiry.askAll m.goals).run (m.chronicleUpTo m.maxDepth)) {} := by
  rw [Inquiry.run_askAll]
  rfl

theorem resolveEach_eq (m : Matcher) (calls : List Goal) :
    m.resolveEach calls =
      ⟨(m.chronicleEach calls).1, (m.chronicleEach calls).2.memo.log.reverse⟩ := by
  have hsame := Chronicle.Forgets.mapM (Chronicle.forgets_chronicleUpTo m m.maxDepth) calls {}
  rw [resolveEach, ← hsame]
  rfl

theorem run_resolveAll_eq (m : Matcher) :
    m.resolveAll.run = ⟨m.chronicleAll.1, m.chronicleAll.2.memo.log.reverse⟩ := by
  have hsame := (Chronicle.forgets_run (Chronicle.forgets_chronicleUpTo m m.maxDepth)
    (Inquiry.askAll m.goals)).outcome_eq {}
  rw [← chronicleAll_eq, Inquiry.run_askAll] at hsame
  have hrun : m.resolveAll.run =
      ⟨(ResolveM.outcome (m.goals.mapM (m.resolveUpTo m.maxDepth)) {}).1,
        (ResolveM.outcome (m.goals.mapM (m.resolveUpTo m.maxDepth)) {}).2.log.reverse⟩ := rfl
  rw [hrun, ← hsame]

end Matcher

end Shorthand
