import Shorthand.Replay
import Shorthand.Proofs.Matcher

/-!
# Questions of replays

How a computation with questions goes on depends on the answers it gets. Here the answers are a relation
between goals and edits: `Inquiry.Yields` says with which result the computation ends if its questions
are answered so, and `Inquiry.Asks` which questions it comes to. Neither mentions who answers.

## Main statements

- `Inquiry.Yields.exists_answer`: a computation that ends got an answer to every question it came to.
- `Inquiry.Asks.eq_or_exists_answer`: of two questions it comes to, one was answered.
- `Inquiry.yields_bind_iff`: with which result two computations end, one after the other.
- `Matcher.WellFormed.within_screenBefore`: a replay asks for goals of its matcher only.
-/

namespace Shorthand

namespace Inquiry

variable {α β : Type} {answers answers' : Goal → Edit → Prop} {x : Inquiry α} {a : α}
  {goal goal' : Goal}

/-! ## Results and questions -/

/-- `x.Yields answers a`: with these answers, the computation ends with `a`. -/
inductive Yields (answers : Goal → Edit → Prop) : Inquiry α → α → Prop where
  | answer (a : α) : Yields answers (.answer a) a
  -- it gets an answer and goes on
  | ask {goal : Goal} {edit : Edit} {next : Edit → Inquiry α} {a : α} :
      answers goal edit → Yields answers (next edit) a → Yields answers (.ask goal next) a

/-- `x.Asks answers goal`: with these answers, the computation comes to a question for `goal`. -/
inductive Asks (answers : Goal → Edit → Prop) : Inquiry α → Goal → Prop where
  | now (goal : Goal) (next : Edit → Inquiry α) : Asks answers (.ask goal next) goal
  -- it gets an answer to another question before
  | later {goal goal' : Goal} {edit : Edit} {next : Edit → Inquiry α} :
      answers goal edit → Asks answers (next edit) goal' → Asks answers (.ask goal next) goal'

theorem Yields.imp (himp : ∀ goal edit, answers goal edit → answers' goal edit)
    (h : x.Yields answers a) : x.Yields answers' a := by
  induction h with
  | answer a => exact .answer a
  | ask hanswer _ ih => exact .ask (himp _ _ hanswer) ih

theorem Asks.imp (himp : ∀ goal edit, answers goal edit → answers' goal edit)
    (h : x.Asks answers goal) : x.Asks answers' goal := by
  induction h with
  | now goal next => exact .now goal next
  | later hanswer _ ih => exact .later (himp _ _ hanswer) ih

/-- Only finitely many answers are used, so a bound that each of them has can be had for all. -/
theorem Yields.exists_bound {bounded : Nat → Goal → Edit → Prop}
    (hmono : ∀ goal edit d d', d ≤ d' → bounded d goal edit → bounded d' goal edit)
    (h : x.Yields (fun goal edit => ∃ d, bounded d goal edit) a) :
    ∃ d, x.Yields (bounded d) a := by
  induction h with
  | answer a => exact ⟨0, .answer a⟩
  | ask hanswer _ ih =>
    obtain ⟨d, hd⟩ := hanswer
    obtain ⟨d', hd'⟩ := ih
    -- the greater of the two bounds is one for both
    exact ⟨max d d', .ask (hmono _ _ _ _ (Nat.le_max_left ..) hd)
      (hd'.imp fun _ _ => hmono _ _ _ _ (Nat.le_max_right ..))⟩

theorem Asks.exists_bound {bounded : Nat → Goal → Edit → Prop}
    (hmono : ∀ goal edit d d', d ≤ d' → bounded d goal edit → bounded d' goal edit)
    (h : x.Asks (fun goal edit => ∃ d, bounded d goal edit) goal) :
    ∃ d, x.Asks (bounded d) goal := by
  induction h with
  | now goal next => exact ⟨0, .now goal next⟩
  | later hanswer _ ih =>
    obtain ⟨d, hd⟩ := hanswer
    obtain ⟨d', hd'⟩ := ih
    -- as for the result
    exact ⟨max d d', .later (hmono _ _ _ _ (Nat.le_max_left ..) hd)
      (hd'.imp fun _ _ => hmono _ _ _ _ (Nat.le_max_right ..))⟩

/-! ## Unique answers -/

theorem Yields.unique (hunique : Relator.RightUnique answers) {a' : α} (h : x.Yields answers a)
    (h' : x.Yields answers a') : a = a' := by
  induction h with
  | answer a => cases h'; rfl
  | ask hanswer _ ih =>
    cases h' with
    | ask hanswer' h' =>
      obtain rfl := hunique hanswer hanswer'
      exact ih h'

section

variable (himp : ∀ goal edit, answers goal edit → answers' goal edit)
  (hunique : Relator.RightUnique answers')
include himp hunique

/-- A computation that ends got an answer to every question, also if it could have got more answers than
it did. -/
theorem Yields.exists_answer (h : x.Yields answers a) (hasks : x.Asks answers' goal) :
    ∃ edit, answers goal edit := by
  induction h with
  | answer a => cases hasks
  | ask hanswer _ ih =>
    cases hasks with
    | now => exact ⟨_, hanswer⟩
    | later hanswer' hasks =>
      -- both get one answer here, so they go on together
      obtain rfl := hunique (himp _ _ hanswer) hanswer'
      exact ih hasks

/-- Questions come one after the other, and the earlier one is answered before. -/
theorem Asks.eq_or_exists_answer (h : x.Asks answers goal) (h' : x.Asks answers' goal') :
    goal = goal' ∨ (∃ edit, answers' goal edit) ∨ ∃ edit, answers goal' edit := by
  induction h with
  | now goal next =>
    cases h' with
    -- both stop here
    | now => exact .inl rfl
    | later hanswer _ => exact .inr (.inl ⟨_, hanswer⟩)
  | later hanswer _ ih =>
    cases h' with
    | now => exact .inr (.inr ⟨_, hanswer⟩)
    | later hanswer' h' =>
      -- both go on, with one answer
      obtain rfl := hunique (himp _ _ hanswer) hanswer'
      exact ih h'

end

/-! ## Sequences -/

/-- Two computations end if the first one does and the second one does after it. -/
theorem yields_bind_iff {f : α → Inquiry β} {b : β} :
    (x >>= f).Yields answers b ↔ ∃ a, x.Yields answers a ∧ (f a).Yields answers b := by
  induction x with
  | answer a =>
    constructor
    · intro h
      exact ⟨a, .answer a, h⟩
    · rintro ⟨a', h, h'⟩
      cases h
      exact h'
  | ask goal next ih =>
    constructor
    · intro h
      cases h with
      | ask hanswer h =>
        obtain ⟨a, ha, hb⟩ := (ih _).mp h
        exact ⟨a, .ask hanswer ha, hb⟩
    · rintro ⟨a, h, hb⟩
      cases h with
      | ask hanswer h => exact .ask hanswer ((ih _).mpr ⟨a, h, hb⟩)

theorem yields_answer_iff {b : α} : (answer b : Inquiry α).Yields answers a ↔ a = b := by
  constructor
  · intro h
    cases h
    rfl
  · intro h
    rw [h]
    exact .answer b

theorem Asks.bind_left (h : x.Asks answers goal) (f : α → Inquiry β) :
    (x >>= f).Asks answers goal := by
  induction h with
  | now goal next => exact .now goal _
  | later hanswer _ ih => exact .later hanswer ih

theorem bind_answer (x : Inquiry α) : x >>= answer = x := by
  induction x with
  | answer a => rfl
  | ask goal next ih => exact congrArg (ask goal) (funext ih)

theorem bind_bind {γ : Type} (x : Inquiry α) (f : α → Inquiry β) (g : β → Inquiry γ) :
    x >>= f >>= g = x >>= fun a => f a >>= g := by
  induction x with
  | answer a => rfl
  | ask goal next ih => exact congrArg (ask goal) (funext ih)

instance : LawfulMonad Inquiry :=
  LawfulMonad.mk' Inquiry bind_answer (fun _ _ => rfl) bind_bind

/-- A run of two computations is a run of the first one and then of the second one. -/
theorem run_bind {n : Type → Type} [Monad n] [LawfulMonad n] (reply : Goal → n Edit) (x : Inquiry α)
    (f : α → Inquiry β) : (x >>= f).run reply = x.run reply >>= fun a => (f a).run reply := by
  induction x with
  | answer a => exact (pure_bind a fun a => (f a).run reply).symm
  | ask goal next ih =>
    rw [ask_bind, run, run, bind_assoc]
    exact congrArg (reply goal >>= ·) (funext ih)

/-! ## Questions from a list -/

/-- Whether all questions are for goals of a list, whatever the answers. -/
def Within (goals : List Goal) : Inquiry α → Prop
  | answer _ => True
  | ask goal next => goal ∈ goals ∧ ∀ edit, (next edit).Within goals

variable {goals : List Goal}

theorem Within.bind {f : α → Inquiry β} (hx : x.Within goals) (hf : ∀ a, (f a).Within goals) :
    (x >>= f).Within goals := by
  induction x with
  | answer a => exact hf a
  | ask goal next ih => exact ⟨hx.1, fun edit => ih edit (hx.2 edit)⟩

theorem Within.foldlM {f : β → α → Inquiry β} (hf : ∀ b a, (f b a).Within goals) (b : β)
    (l : List α) : (l.foldlM f b).Within goals := by
  induction l generalizing b with
  | nil => trivial
  | cons a l ih =>
    rw [List.foldlM_cons]
    exact (hf b a).bind fun b => ih b

theorem Within.mem_of_asks (hx : x.Within goals) (h : x.Asks answers goal) : goal ∈ goals := by
  induction h with
  | now => exact hx.1
  | later _ _ ih => exact ih (hx.2 _)

end Inquiry

/-! ## Questions of a matcher -/

theorem Forest.mem_of_child? {α : Type} {forest : Forest α} {code : Code} {node : Node α} {a : α}
    (hnode : forest.child? code = some node)
    (ha : node.item = some a ∨ ∃ x ∈ node.children.toList, x.2 = a) :
    ∃ x ∈ forest.toList, x.2 = a := by
  induction forest with
  | nil => cases hnode
  | cons c index item children siblings _ ih =>
    rw [child?] at hnode
    simp only [toList, List.mem_append, List.mem_map]
    split at hnode
    -- the first tree: its item has the path of one code, the others have one more
    · cases hnode
      rcases ha with ha | ⟨x, hx, rfl⟩
      · exact ⟨([c], a), .inl (.inl ⟨a, by simpa using ha, rfl⟩), rfl⟩
      · exact ⟨(c :: x.1, x.2), .inl (.inr ⟨x, hx, rfl⟩), rfl⟩
    · obtain ⟨x, hx, rfl⟩ := ih hnode
      exact ⟨x, .inr hx, rfl⟩

namespace Matcher

variable {m : Matcher} {goals : List Goal} {answers : Goal → Edit → Prop} {screen screen' : Screen}
  {key : Char} {keys : List Char}

/-- The replay of some keys goes on where that of the keys before ended. -/
theorem replay_append (m : Matcher) (keys keys' : List Char) :
    m.replay (keys ++ keys') = m.replay keys >>= fun screen => keys'.foldlM m.press screen :=
  List.foldlM_append

/-- A rule fires on the screen with the key on it, or the key stays. -/
theorem yields_press_iff :
    (m.press screen key).Yields answers screen' ↔
      ∃ found, (m.firing ⟨key :: screen.typed, key :: screen.shown⟩).Yields answers found ∧
        screen' = match found with
          | some edit =>
            Screen.fire ⟨key :: screen.typed, key :: screen.shown⟩ m.alphabet.wordbreak edit
          | none => ⟨key :: screen.typed, key :: screen.shown⟩ := by
  rw [press, Inquiry.yields_bind_iff]
  refine exists_congr fun found => and_congr_right fun _ => ?_
  cases found <;> exact Inquiry.yields_answer_iff

theorem typed_of_press (h : (m.press screen key).Yields answers screen') :
    screen'.typed = key :: screen.typed := by
  obtain ⟨found, -, rfl⟩ := yields_press_iff.mp h
  cases found <;> rfl

theorem typed_of_foldlM_press (h : (keys.foldlM m.press screen).Yields answers screen') :
    screen'.typed = keys.reverse ++ screen.typed := by
  induction keys generalizing screen with
  | nil =>
    cases h
    rfl
  | cons key keys ih =>
    rw [List.foldlM_cons, Inquiry.yields_bind_iff] at h
    obtain ⟨_, hkey, hkeys⟩ := h
    rw [ih hkeys, typed_of_press hkey, List.reverse_cons, List.append_assoc,
      List.singleton_append]

/-- A replay keeps all its keys, whatever fires. -/
theorem typed_of_replay (h : (m.replay keys).Yields answers screen) :
    screen.typed = keys.reverse := by
  rw [typed_of_foldlM_press h, List.append_nil]

theorem within_search {below : Forest Goal} (hbelow : ∀ x ∈ below.toList, x.2 ∈ goals)
    (longest : Option Edit) (buffer : List Char) :
    (m.search below longest buffer).Within goals := by
  induction buffer generalizing below longest with
  | nil => trivial
  | cons c buffer ih =>
    rw [search]
    cases hnode : (m.alphabet.code? c).bind below.child? with
    | none => trivial
    | some node =>
      obtain ⟨code, -, hchild⟩ := Option.bind_eq_some_iff.mp hnode
      have hmem (goal : Goal)
          (h : node.item = some goal ∨ ∃ x ∈ node.children.toList, x.2 = goal) : goal ∈ goals := by
        obtain ⟨x, hx, rfl⟩ := Forest.mem_of_child? hchild h
        exact hbelow x hx
      obtain ⟨index, item, children⟩ := node
      have hchildren : ∀ x ∈ children.toList, x.2 ∈ goals := fun x hx => hmem _ (.inr ⟨x, hx, rfl⟩)
      cases item with
      -- nothing is kept here, so no question is asked
      | none => exact ih hchildren longest
      | some goal => exact ⟨hmem goal (.inl rfl), fun edit => ih hchildren (some edit)⟩

namespace WellFormed

variable (h : m.WellFormed)
include h

theorem mem_goals_of_mem_toList {x : List Code × Goal} (hx : x ∈ m.trie.toList) : x.2 ∈ m.goals := by
  obtain ⟨goal, hgoal, rfl⟩ := List.mem_map.mp (h.toList.mem_iff.mp hx)
  exact hgoal

theorem within_longestMatch (buffer : List Char) : (m.longestMatch buffer).Within m.goals :=
  within_search (fun _ hx => h.mem_goals_of_mem_toList (List.mem_append_right _ hx)) none buffer

theorem within_press (screen : Screen) (key : Char) : (m.press screen key).Within m.goals := by
  -- the screen is searched first and then, if nothing ends it, the keys
  have hfiring (screen : Screen) : (m.firing screen).Within m.goals := by
    refine (h.within_longestMatch _).bind fun found => ?_
    cases found with
    | none => exact h.within_longestMatch _
    | some edit => trivial
  refine (hfiring _).bind fun found => ?_
  cases found <;> trivial

/-- A replay asks for goals of its matcher only. -/
theorem within_screenBefore (goal : Goal) : (m.screenBefore goal).Within m.goals :=
  (Inquiry.Within.foldlM h.within_press {} _).bind fun _ => trivial

end WellFormed

end Matcher

end Shorthand
