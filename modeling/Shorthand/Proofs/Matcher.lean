import Shorthand.Proofs.Alphabet
import Shorthand.Proofs.Trie
import Mathlib.Data.List.Nodup

/-!
# Matchers that were made of rules

`Matcher.ofRules` refuses a list of rules for two reasons only: a context has a character without a
code, or two contexts are equal (`Matcher.exists_ofRules_iff`), and it names the first rule that is to
blame (`Matcher.ofRules_eq_error_iff`). `Matcher.WellFormed` collects what holds of a matcher otherwise: its
trie keeps the goals under the paths of their contexts and nothing else.
-/

namespace Shorthand

/-! ## Goals -/

namespace Goal

variable (alphabet : Alphabet) (index : Nat) (r : Rule)

@[simp] theorem index_ofRule : (ofRule alphabet index r).index = index := by
  unfold ofRule
  split <;> rfl

@[simp] theorem context_ofRule : (ofRule alphabet index r).context = r.context := by
  unfold ofRule
  split <;> rfl

theorem outputFunc_ofRule_lt : (ofRule alphabet index r).outputFunc < 8 := by
  unfold ofRule
  split
  next func hfunc =>
    obtain ⟨c, -, hc⟩ := Option.bind_eq_some_iff.mp hfunc
    obtain ⟨i, hi, rfl⟩ := Option.map_eq_some_iff.mp hc
    have hlt := (List.getElem?_eq_some_iff.mp (Alphabet.getElem?_of_lastIdxOf? hi)).1
    have hmax := alphabet.length_outputFuncChars_le
    show i + 1 < 8
    omega
  next => exact Nat.zero_lt_succ 7

end Goal

/-- A goal under the path of its context. -/
def Alphabet.place (alphabet : Alphabet) (goal : Goal) : List Code × Goal :=
  (alphabet.codes goal.context.toList, goal)

theorem Alphabet.context_eq_of_place {alphabet : Alphabet} {goal goal' : Goal}
    (hall : ∀ c ∈ goal.context.toList, alphabet.contains c)
    (hall' : ∀ c ∈ goal'.context.toList, alphabet.contains c)
    (h : (alphabet.place goal).1 = (alphabet.place goal').1) : goal.context = goal'.context :=
  String.toList_inj.mp <| Alphabet.path_injective (Alphabet.path_eq_ok_iff.mpr ⟨hall, rfl⟩)
    (Alphabet.path_eq_ok_iff.mpr ⟨hall', h⟩)

namespace Matcher

variable {alphabet : Alphabet} {trie trie' : Trie Goal} {goal : Goal} {goals : List Goal}

/-! ## Adding goals -/

/-- A goal is added if its context has a path under which nothing is kept. -/
theorem addGoal_eq_ok_iff (h : trie.WellFormed) :
    addGoal alphabet trie goal = .ok trie' ↔
      (∀ c ∈ goal.context.toList, alphabet.contains c) ∧
        (∀ b, ((alphabet.place goal).1, b) ∉ trie.toList) ∧
          trie' = trie.insert (alphabet.place goal).1 goal := by
  unfold addGoal Alphabet.place
  split
  -- a character has no code
  next c hpath =>
    have hno : ¬ ∀ c ∈ goal.context.toList, alphabet.contains c := fun hall => by
      rw [Alphabet.path_eq_ok_iff.mpr ⟨hall, rfl⟩] at hpath
      cases hpath
    simp [hno]
  next path hpath =>
    obtain ⟨hall, rfl⟩ := Alphabet.path_eq_ok_iff.mp hpath
    rw [← h.get?_eq_none_iff]
    split
    -- there is a goal with this context
    next hsome =>
      have hne : trie.get? (alphabet.codes goal.context.toList) ≠ none := by
        rwa [← Option.isSome_iff_ne_none]
      simp [hne]
    -- nothing is kept under the path
    next hnone =>
      have heq : trie.get? (alphabet.codes goal.context.toList) = none := by simpa using hnone
      simp only [heq, Except.ok.injEq, true_and]
      exact ⟨fun h => ⟨hall, h.symm⟩, fun h => h.2.symm⟩

/-- A goal is refused for a character of its context, or if there is none to refuse it for, because
something is kept under the path. -/
theorem addGoal_eq_error_iff {e : MatcherError} (h : trie.WellFormed) :
    addGoal alphabet trie goal = .error e ↔
      (∃ c, alphabet.path goal.context.toList = .error c ∧ e = .unknownCharacter goal.context c) ∨
        ((∀ c ∈ goal.context.toList, alphabet.contains c) ∧
          (∃ b, ((alphabet.place goal).1, b) ∈ trie.toList) ∧ e = .duplicateContext goal.context) := by
  have htaken : (∃ b, ((alphabet.place goal).1, b) ∈ trie.toList) ↔
      (trie.get? (alphabet.codes goal.context.toList)).isSome := by
    rw [← Option.ne_none_iff_isSome, Ne, h.get?_eq_none_iff]
    simp [Alphabet.place]
  unfold addGoal
  split
  next c hpath =>
    have hno : ¬ ∀ c ∈ goal.context.toList, alphabet.contains c := fun hall => by
      rw [Alphabet.path_eq_ok_iff.mpr ⟨hall, rfl⟩] at hpath
      cases hpath
    simp [hno, hpath, @eq_comm _ e]
  next path hpath =>
    obtain ⟨hall, rfl⟩ := Alphabet.path_eq_ok_iff.mp hpath
    rw [htaken, hpath]
    split
    next hsome => simpa [hsome, @eq_comm _ e] using fun _ => hall
    next hnone => simp [hnone]

/-- Goals that were added one after the other are all kept, and nothing else is. -/
theorem foldlM_addGoal (h : trie.WellFormed)
    (hfold : goals.foldlM (addGoal alphabet) trie = .ok trie') :
    trie'.WellFormed ∧ trie'.toList.Perm (goals.map alphabet.place ++ trie.toList) ∧
      ∀ goal ∈ goals, ∀ c ∈ goal.context.toList, alphabet.contains c := by
  induction goals generalizing trie with
  | nil =>
    cases hfold
    exact ⟨h, List.Perm.refl _, fun _ hmem => by cases hmem⟩
  | cons goal goals ih =>
    rw [List.foldlM_cons] at hfold
    obtain ⟨t, hadd, hfold⟩ := bind_eq_ok_iff.mp hfold
    obtain ⟨hall, hnew, rfl⟩ := (addGoal_eq_ok_iff h).mp hadd
    -- the rest starts from a trie that has the first goal
    obtain ⟨hwf, hperm, hrest⟩ := ih (h.insert _ _) hfold
    refine ⟨hwf, hperm.trans ?_, List.forall_mem_cons.mpr ⟨hall, hrest⟩⟩
    exact ((Trie.WellFormed.toList_insert hnew).append_left _).trans List.perm_middle

/-- Goals are added if their contexts have paths and no path is taken, before or among them. -/
theorem exists_foldlM_addGoal (h : trie.WellFormed)
    (hall : ∀ goal ∈ goals, ∀ c ∈ goal.context.toList, alphabet.contains c)
    (hnew : ∀ goal ∈ goals, ∀ b, ((alphabet.place goal).1, b) ∉ trie.toList)
    (hnodup : (goals.map (·.context)).Nodup) :
    ∃ trie', goals.foldlM (addGoal alphabet) trie = .ok trie' := by
  induction goals generalizing trie with
  | nil => exact ⟨trie, rfl⟩
  | cons goal goals ih =>
    rw [List.forall_mem_cons] at hall hnew
    rw [List.map_cons, List.nodup_cons] at hnodup
    have hadd := (addGoal_eq_ok_iff h).mpr ⟨hall.1, hnew.1, rfl⟩
    obtain ⟨trie', hfold⟩ := ih (h.insert (alphabet.place goal).1 goal) hall.2 (by
      intro g hg b hb
      have hperm := Trie.WellFormed.toList_insert (a := goal) hnew.1
      rcases List.mem_cons.mp (hperm.mem_iff.mp hb) with heq | hb
      · -- equal paths would be those of equal contexts
        have hcontext := Alphabet.context_eq_of_place (hall.2 g hg) hall.1 (Prod.mk.inj heq).1
        exact hnodup.1 (List.mem_map.mpr ⟨g, hg, hcontext⟩)
      · exact hnew.2 g hg b hb) hnodup.2
    exact ⟨trie', by rw [List.foldlM_cons, hadd]; exact hfold⟩

/-! ## Matchers of rules -/

/-- The goals of a list of rules. -/
def goalsOf (alphabet : Alphabet) (rules : List Rule) : List Goal :=
  rules.zipIdx.map fun (r, index) => Goal.ofRule alphabet index r

@[simp] theorem length_goalsOf (alphabet : Alphabet) (rules : List Rule) :
    (goalsOf alphabet rules).length = rules.length := by
  simp [goalsOf]

theorem getElem?_goalsOf (alphabet : Alphabet) (rules : List Rule) (i : Nat) :
    (goalsOf alphabet rules)[i]? = rules[i]?.map (Goal.ofRule alphabet i) := by
  simp [goalsOf, List.getElem?_zipIdx, Function.comp_def]

theorem map_context_goalsOf (alphabet : Alphabet) (rules : List Rule) :
    (goalsOf alphabet rules).map (·.context) = rules.map (·.context) := by
  refine List.ext_getElem? fun i => ?_
  simp [getElem?_goalsOf, Function.comp_def]

/-- What holds of every matcher that was made of rules. -/
structure WellFormed (m : Matcher) : Prop where
  /-- The trie is well formed. -/
  trie : m.trie.WellFormed
  /-- The trie keeps the goals under the paths of their contexts. -/
  toList : m.trie.toList.Perm (m.goals.map m.alphabet.place)
  /-- The alphabet has the characters of all contexts. -/
  contains : ∀ goal ∈ m.goals, ∀ c ∈ goal.context.toList, m.alphabet.contains c
  /-- The index of a goal is its position. -/
  index_eq : ∀ (i : Nat) (goal : Goal), m.goals[i]? = some goal → goal.index = i
  /-- The number of an output function fits into three bits. -/
  outputFunc_lt : ∀ goal ∈ m.goals, goal.outputFunc < 8

variable {rules : List Rule} {m : Matcher}

theorem ofRules_eq_ok_iff :
    ofRules alphabet rules = .ok m ↔
      ∃ trie, (goalsOf alphabet rules).foldlM (addGoal alphabet) ∅ = .ok trie ∧
        m = ⟨alphabet, goalsOf alphabet rules, trie⟩ := by
  unfold ofRules
  rw [bind_eq_ok_iff]
  constructor
  · rintro ⟨trie, htrie, h⟩
    exact ⟨trie, htrie, (Except.ok.inj h).symm⟩
  · rintro ⟨trie, htrie, rfl⟩
    exact ⟨trie, htrie, rfl⟩

section

variable (h : ofRules alphabet rules = .ok m)
include h

theorem alphabet_of_ofRules : m.alphabet = alphabet := by
  obtain ⟨trie, -, rfl⟩ := ofRules_eq_ok_iff.mp h
  rfl

theorem goals_of_ofRules : m.goals = goalsOf alphabet rules := by
  obtain ⟨trie, -, rfl⟩ := ofRules_eq_ok_iff.mp h
  rfl

theorem wellFormed_of_ofRules : m.WellFormed := by
  obtain ⟨trie, hfold, rfl⟩ := ofRules_eq_ok_iff.mp h
  obtain ⟨hwf, hperm, hall⟩ := foldlM_addGoal Trie.wellFormed_empty hfold
  refine ⟨hwf, by simpa [Trie.toList_empty] using hperm, hall, fun i goal hi => ?_,
    fun goal hgoal => ?_⟩
  · rw [getElem?_goalsOf] at hi
    obtain ⟨r, -, rfl⟩ := Option.map_eq_some_iff.mp hi
    exact Goal.index_ofRule ..
  · obtain ⟨⟨r, index⟩, -, rfl⟩ := List.mem_map.mp hgoal
    exact Goal.outputFunc_ofRule_lt ..

end

namespace WellFormed

variable (h : m.WellFormed)
include h

theorem path_eq_ok (hgoal : goal ∈ m.goals) :
    m.alphabet.path goal.context.toList = .ok (m.alphabet.place goal).1 :=
  Alphabet.path_eq_ok_iff.mpr ⟨h.contains goal hgoal, rfl⟩

theorem path_of_mem_toList {path : List Code} {goal : Goal} (hmem : (path, goal) ∈ m.trie.toList) :
    m.alphabet.path goal.context.toList = .ok path := by
  obtain ⟨g, hg, heq⟩ := List.mem_map.mp (h.toList.mem_iff.mp hmem)
  obtain ⟨hpath, rfl⟩ := Prod.mk.inj heq
  rw [h.path_eq_ok hg, ← hpath]
  rfl

theorem eq_of_index_eq {goal' : Goal} (hgoal : goal ∈ m.goals) (hgoal' : goal' ∈ m.goals)
    (hindex : goal.index = goal'.index) : goal = goal' := by
  obtain ⟨i, hi⟩ := List.mem_iff_getElem?.mp hgoal
  obtain ⟨j, hj⟩ := List.mem_iff_getElem?.mp hgoal'
  rw [h.index_eq i goal hi, h.index_eq j goal' hj] at hindex
  rw [hindex, hj] at hi
  exact (Option.some.inj hi).symm

theorem nodup_context : (m.goals.map (·.context)).Nodup := by
  -- no path is listed twice, since they ascend
  have hpaths : (m.trie.toList.map (·.1)).Nodup := by
    refine List.pairwise_map.mpr (h.trie.pairwise_toList.imp fun hlt heq => ?_)
    rw [heq] at hlt
    exact List.lt_irrefl _ hlt
  -- so no two goals have one path, nor one context
  have hplaces := (h.toList.map (·.1)).nodup_iff.mp hpaths
  have hcodes : (m.goals.map m.alphabet.place).map (·.1) =
      (m.goals.map (·.context)).map fun context => m.alphabet.codes context.toList := by
    simp [Alphabet.place, Function.comp_def]
  exact List.Nodup.of_map _ (hcodes ▸ hplaces)

end WellFormed

/-- Rules have a matcher if their contexts have paths and are different from one another. -/
theorem exists_ofRules_iff :
    (∃ m, ofRules alphabet rules = .ok m) ↔
      (∀ r ∈ rules, ∀ c ∈ r.context.toList, alphabet.contains c) ∧
        (rules.map (·.context)).Nodup := by
  have hcontexts := map_context_goalsOf alphabet rules
  constructor
  · rintro ⟨m, h⟩
    have hwf := wellFormed_of_ofRules h
    have hgoals := goals_of_ofRules h
    refine ⟨fun r hr => ?_, by rw [← hcontexts, ← hgoals]; exact hwf.nodup_context⟩
    -- every rule has its goal, and the matcher knows the characters of goals
    have hmem : r.context ∈ m.goals.map (·.context) := by
      rw [hgoals, hcontexts]
      exact List.mem_map_of_mem hr
    obtain ⟨goal, hgoal, heq⟩ := List.mem_map.mp hmem
    rw [← alphabet_of_ofRules h, ← heq]
    exact hwf.contains goal hgoal
  · rintro ⟨hall, hnodup⟩
    have hgoals : ∀ goal ∈ goalsOf alphabet rules, ∀ c ∈ goal.context.toList,
        alphabet.contains c := by
      intro goal hgoal
      have hmem : goal.context ∈ rules.map (·.context) := by
        rw [← hcontexts]
        exact List.mem_map_of_mem hgoal
      obtain ⟨r, hr, heq⟩ := List.mem_map.mp hmem
      exact heq ▸ hall r hr
    obtain ⟨trie, htrie⟩ := exists_foldlM_addGoal Trie.wellFormed_empty hgoals
      (fun _ _ b hb => by cases hb) (by rwa [hcontexts])
    exact ⟨_, ofRules_eq_ok_iff.mpr ⟨trie, htrie, rfl⟩⟩

/-- So it depends on their contexts only, in whatever order. -/
theorem exists_ofRules_of_perm {rules' : List Rule}
    (hperm : (rules.map (·.context)).Perm (rules'.map (·.context)))
    (h : ofRules alphabet rules = .ok m) : ∃ m', ofRules alphabet rules' = .ok m' := by
  obtain ⟨hall, hnodup⟩ := exists_ofRules_iff.mp ⟨m, h⟩
  refine exists_ofRules_iff.mpr ⟨?_, hperm.nodup_iff.mp hnodup⟩
  intro r' hr'
  obtain ⟨r, hr, heq⟩ := List.mem_map.mp (hperm.mem_iff.mpr (List.mem_map_of_mem hr'))
  exact heq ▸ hall r hr

theorem goalsOf_append (alphabet : Alphabet) (before : List Rule) (r : Rule) (after : List Rule) :
    ∃ later, goalsOf alphabet (before ++ r :: after) =
      goalsOf alphabet before ++ Goal.ofRule alphabet before.length r :: later := by
  refine ⟨(after.zipIdx (before.length + 1)).map fun (r, index) => Goal.ofRule alphabet index r, ?_⟩
  simp [goalsOf, List.zipIdx_append]

/-- A goal is refused after rules that have a matcher for a character of its context, or if there is
none to refuse it for, because one of these rules has its context. -/
theorem addGoal_eq_error_iff_of_ofRules {e : MatcherError} (h : ofRules alphabet rules = .ok m) :
    addGoal alphabet m.trie goal = .error e ↔
      (∃ c, alphabet.path goal.context.toList = .error c ∧ e = .unknownCharacter goal.context c) ∨
        ((∀ c ∈ goal.context.toList, alphabet.contains c) ∧
          goal.context ∈ rules.map (·.context) ∧ e = .duplicateContext goal.context) := by
  have hwf := wellFormed_of_ofRules h
  have hgoals : m.goals.map (·.context) = rules.map (·.context) := by
    rw [goals_of_ofRules h, map_context_goalsOf]
  obtain rfl := alphabet_of_ofRules h
  rw [addGoal_eq_error_iff hwf.trie]
  refine or_congr_right (and_congr_right fun hall => and_congr_left fun _ => ?_)
  rw [← hgoals, List.mem_map]
  constructor
  · -- what is kept under the path is the goal of a rule with this context
    rintro ⟨b, hb⟩
    obtain ⟨g, hg, hplace⟩ := List.mem_map.mp (hwf.toList.mem_iff.mp hb)
    exact ⟨g, hg, Alphabet.context_eq_of_place (hwf.contains g hg) hall (Prod.mk.inj hplace).1⟩
  · rintro ⟨g, hg, hcontext⟩
    refine ⟨g, hwf.toList.mem_iff.mpr (List.mem_map.mpr ⟨g, hg, ?_⟩)⟩
    unfold Alphabet.place
    rw [hcontext]

/-- If rules have no matcher, the first culprit is named: a context with a character without a code, or
else one that an earlier rule has. -/
theorem ofRules_eq_error_iff {e : MatcherError} :
    ofRules alphabet rules = .error e ↔
      ∃ before r after m, rules = before ++ r :: after ∧ ofRules alphabet before = .ok m ∧
        ((∃ c, alphabet.path r.context.toList = .error c ∧ e = .unknownCharacter r.context c) ∨
          ((∀ c ∈ r.context.toList, alphabet.contains c) ∧
            r.context ∈ before.map (·.context) ∧ e = .duplicateContext r.context)) := by
  have hfold : ofRules alphabet rules = .error e ↔
      (goalsOf alphabet rules).foldlM (addGoal alphabet) ∅ = .error e := by
    unfold ofRules
    rw [bind_eq_error_iff, or_iff_left (by rintro ⟨trie, -, h⟩; cases h)]
    rfl
  rw [hfold, foldlM_eq_error_iff]
  constructor
  · rintro ⟨goals, goal, later, trie, heq, htrie, hadd⟩
    -- the goals are those of the rules, so the rules divide where the goals do
    obtain ⟨_, _, hzip, rfl, hlater⟩ := List.map_eq_append_iff.mp heq
    obtain ⟨before, rest, rfl, rfl, rfl⟩ := List.zipIdx_eq_append_iff.mp hzip
    obtain ⟨_, _, hzip, rfl, -⟩ := List.map_eq_cons_iff.mp hlater
    obtain ⟨r, after, rfl, rfl, -⟩ := List.zipIdx_eq_cons_iff.mp hzip
    have hbefore := ofRules_eq_ok_iff.mpr ⟨trie, htrie, rfl⟩
    have hculprit := (addGoal_eq_error_iff_of_ofRules hbefore).mp hadd
    rw [Goal.context_ofRule] at hculprit
    exact ⟨before, r, after, _, rfl, hbefore, hculprit⟩
  · rintro ⟨before, r, after, m, rfl, hbefore, hculprit⟩
    obtain ⟨later, hgoals⟩ := goalsOf_append alphabet before r after
    rw [← Goal.context_ofRule alphabet before.length r] at hculprit
    have hadd := (addGoal_eq_error_iff_of_ofRules hbefore).mpr hculprit
    obtain ⟨trie, htrie, rfl⟩ := ofRules_eq_ok_iff.mp hbefore
    exact ⟨goalsOf alphabet before, _, later, trie, hgoals, htrie, hadd⟩

end Matcher

end Shorthand
