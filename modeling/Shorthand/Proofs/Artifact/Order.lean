import Shorthand.Proofs.Artifact.Figures
import Shorthand.Proofs.Pool.Order
import Shorthand.Proofs.Resolver.Order
import Shorthand.Proofs.Table.Canonical

/-!
# Artifacts do not depend on the order of rules

In another order the rules are numbered in another way, and so are the nodes of the trie; they are
resolved in another order, and outputs come to the pool in another order. None of it is seen in the
artifact: the trie keeps the same edits under the same paths, whatever their numbers, and the pool
sorts the outputs before it stores them.

## Main statements

- `Matcher.WellFormed.mem_toList_edits_iff`: the trie keeps what the goals evaluate to.
- `Matcher.Reorders.toList_edits`: in another order it keeps the same.
- `Artifact.ofRules_perm`: rules in another order make an artifact of the same table and pool.
-/

namespace Shorthand

namespace Matcher

variable {m m' : Matcher} {edits edits' : List Edit}

/-! ## Edits -/

/-- Under the paths of the goals the trie keeps what these evaluate to. -/
theorem WellFormed.mem_toList_edits_iff (h : m.WellFormed)
    (hfresh : List.Forall₂ (fun goal edit => m.fresh goal = .ok edit) m.goals edits)
    {path : List Code} {edit : Edit} :
    (path, edit) ∈ (m.edits edits).toList ↔ ∃ goal ∈ m.goals,
      m.alphabet.codes goal.context.toList = path ∧ m.Evaluates goal (.ok edit) := by
  obtain ⟨hlength, hzip⟩ := List.forall₂_iff_zip.mp hfresh
  rw [(h.perm_toList_edits hlength.symm).mem_iff, ← List.map_uncurry_zip_eq_zipWith, List.mem_map]
  constructor
  · rintro ⟨⟨goal, _⟩, hmem, heq⟩
    obtain ⟨rfl, rfl⟩ := Prod.mk.inj heq
    have hgoal := (List.of_mem_zip hmem).1
    exact ⟨goal, hgoal, rfl, (h.fresh_eq_ok_iff hgoal).mp (hzip hmem)⟩
  · rintro ⟨goal, hgoal, rfl, hedit⟩
    -- every goal has its edit, and evaluates to no other
    obtain ⟨⟨_, edit'⟩, hmem, rfl⟩ : ∃ x ∈ m.goals.zip edits, x.1 = goal :=
      List.mem_map.mp (by rwa [List.map_fst_zip (Nat.le_of_eq hlength)])
    obtain rfl := Except.ok.inj (hedit.unique ((h.fresh_eq_ok_iff hgoal).mp (hzip hmem)))
    exact ⟨_, hmem, rfl⟩

namespace Reorders

variable (h : m.Reorders m')
include h

theorem exists_mem_goals {goal : Goal} (hgoal : goal ∈ m.goals) :
    ∃ goal' ∈ m'.goals, goal'.unplaced = goal.unplaced :=
  List.mem_map.mp (h.goals.mem_iff.mp (List.mem_map_of_mem hgoal))

/-- If all goals of one matcher have edits, so have those of the other. -/
theorem exists_edits
    (hfresh : List.Forall₂ (fun goal edit => m.fresh goal = .ok edit) m.goals edits) :
    ∃ edits', List.Forall₂ (fun goal edit => m'.fresh goal = .ok edit) m'.goals edits' := by
  have hall := exists_mapM_eq_ok_iff.mp ⟨edits, mapM_eq_ok_iff.mpr hfresh⟩
  have hall' : ∀ goal' ∈ m'.goals, ∃ edit, m'.fresh goal' = .ok edit := by
    intro goal' hgoal'
    obtain ⟨goal, hgoal, hunplaced⟩ := h.symm.exists_mem_goals hgoal'
    obtain ⟨edit, hedit⟩ := hall goal hgoal
    refine ⟨edit, (h.right.fresh_eq_ok_iff hgoal').mpr ?_⟩
    exact (h.evaluates_iff hunplaced).mp ((h.left.fresh_eq_ok_iff hgoal).mp hedit)
  obtain ⟨edits', hedits'⟩ := exists_mapM_eq_ok_iff.mpr hall'
  exact ⟨edits', mapM_eq_ok_iff.mp hedits'⟩

variable (hfresh : List.Forall₂ (fun goal edit => m.fresh goal = .ok edit) m.goals edits)
  (hfresh' : List.Forall₂ (fun goal edit => m'.fresh goal = .ok edit) m'.goals edits')
include hfresh hfresh'

theorem mem_toList_edits {x : List Code × Edit} (hx : x ∈ (m.edits edits).toList) :
    x ∈ (m'.edits edits').toList := by
  obtain ⟨goal, hgoal, hpath, hedit⟩ := (h.left.mem_toList_edits_iff hfresh).mp hx
  obtain ⟨goal', hgoal', hunplaced⟩ := h.exists_mem_goals hgoal
  refine (h.right.mem_toList_edits_iff hfresh').mpr
    ⟨goal', hgoal', ?_, (h.evaluates_iff hunplaced.symm).mp hedit⟩
  rw [Goal.context_eq_of_unplaced hunplaced, ← h.alphabet, hpath]

/-- The tries keep the same edits. -/
theorem toList_edits : (m.edits edits).toList = (m'.edits edits').toList :=
  (h.left.trie_edits edits).toList_eq_of_mem_iff (h.right.trie_edits edits')
    fun _ => ⟨h.mem_toList_edits hfresh hfresh', h.symm.mem_toList_edits hfresh' hfresh⟩

theorem perm_edits : edits.Perm edits' := by
  have hperm := h.left.perm_edits hfresh.length_eq.symm
  rw [h.toList_edits hfresh hfresh'] at hperm
  exact hperm.symm.trans (h.right.perm_edits hfresh'.length_eq.symm)

end Reorders

end Matcher

/-! ## Rules -/

/-- A rule without the number of its line. -/
def Rule.unplaced (r : Rule) : Rule := { r with line := 0 }

section

variable {alphabet : Alphabet} {rules rules' : List Rule}

variable (hperm : (rules.map Rule.unplaced).Perm (rules'.map Rule.unplaced))
include hperm

/-- Rules in another order have a matcher if these have. -/
theorem Matcher.exists_reorders {m : Matcher} (hrules : ofRules alphabet rules = .ok m) :
    ∃ m', ofRules alphabet rules' = .ok m' ∧ m.Reorders m' := by
  have hcontexts : (rules.map (·.context)).Perm (rules'.map (·.context)) := by
    simpa [Function.comp_def, Rule.unplaced] using hperm.map (·.context)
  obtain ⟨m', hrules'⟩ := exists_ofRules_of_perm hcontexts hrules
  refine ⟨m', hrules', wellFormed_of_ofRules hrules, wellFormed_of_ofRules hrules', ?_, ?_⟩
  · rw [alphabet_of_ofRules hrules, alphabet_of_ofRules hrules']
  · -- a goal does not know the line of its rule
    have hgoals := hperm.map (Goal.ofRule alphabet 0)
    rw [List.map_map, List.map_map] at hgoals
    rw [goals_of_ofRules hrules, goals_of_ofRules hrules', map_unplaced_goalsOf,
      map_unplaced_goalsOf]
    exact hgoals

end

/-! ## Artifacts -/

namespace Artifact

/-- Whether two artifacts are the same to a runtime that is built with them. -/
structure Agrees (a a' : Artifact) : Prop where
  table : a.table = a'.table
  pool : a.pool = a'.pool
  maxOutputLength : a.maxOutputLength = a'.maxOutputLength
  maxBackspaces : a.maxBackspaces = a'.maxBackspaces
  magicCount : a.magicCount = a'.magicCount
  -- Of several contexts of one length it is the first that is named.
  minLength : a.minSequence.length = a'.minSequence.length
  maxLength : a.maxSequence.length = a'.maxSequence.length

variable {alphabet : Alphabet} {rules rules' : List Rule} {artifact : Artifact}

section

variable (hperm : (rules.map Rule.unplaced).Perm (rules'.map Rule.unplaced))
include hperm

theorem perm_contextLength : (rules.map (·.contextLength)).Perm (rules'.map (·.contextLength)) := by
  simpa [Function.comp_def, Rule.unplaced, Rule.contextLength] using hperm.map (·.contextLength)

/-- Rules in another order make an artifact that agrees. -/
theorem exists_agrees (h : (ofRules alphabet rules).result = .ok artifact) :
    ∃ artifact', (ofRules alphabet rules').result = .ok artifact' ∧ artifact.Agrees artifact' := by
  obtain ⟨shortest, longest, m, edits, pool, words, hmin, hmax, hrules, hfresh, hpool, hwords,
    rfl⟩ := ofRules_eq_ok_iff.mp h
  obtain ⟨m', hrules', hreorders⟩ := Matcher.exists_reorders hperm hrules
  obtain ⟨edits', hfresh'⟩ := hreorders.exists_edits hfresh
  have hedits := hreorders.perm_edits hfresh hfresh'
  -- the pool sorts the outputs, and the trie keeps the same edits
  rw [Pool.ofOutputs_perm (hedits.map (·.output))] at hpool
  have hwords' := (hreorders.left.trie_edits edits).words_eq_ok_of_toList_eq
    (hreorders.right.trie_edits edits') (hreorders.toList_edits hfresh hfresh') hwords
  have hlengths := perm_contextLength hperm
  have hne : rules' ≠ [] := by
    rintro rfl
    cases hlengths.mem_iff.mp (List.mem_map_of_mem (List.minOn?_mem hmin))
  obtain ⟨shortest', hmin'⟩ : ∃ r, rules'.minOn? (·.contextLength) = some r :=
    Option.isSome_iff_exists.mp (List.isSome_minOn?_iff.mpr hne)
  obtain ⟨longest', hmax'⟩ : ∃ r, rules'.maxOn? (·.contextLength) = some r :=
    Option.isSome_iff_exists.mp (List.isSome_maxOn?_iff.mpr hne)
  refine ⟨_, ofRules_eq_ok_iff.mpr ⟨shortest', longest', m', edits', pool, words, hmin', hmax',
    hrules', hfresh', hpool, hwords', rfl⟩, rfl, rfl, rfl, ?_, rfl, ?_, ?_⟩
  · exact @List.Perm.foldl_op_eq _ max _ _ _ _ 0 (hedits.map (·.backspaces))
  · apply Option.some.inj
    show some shortest.contextLength = some shortest'.contextLength
    rw [← min?_of_minOn? hmin, ← min?_of_minOn? hmin', min?_eq_of_mem_iff fun _ => hlengths.mem_iff]
  · apply Option.some.inj
    show some longest.contextLength = some longest'.contextLength
    rw [← max?_of_maxOn? hmax, ← max?_of_maxOn? hmax', max?_eq_of_mem_iff fun _ => hlengths.mem_iff]

end

/-- Rules in another order, on whatever lines, are compiled if these are, to an artifact with the same
table and pool and the same figures. -/
theorem ofRules_perm (hperm : (rules.map Rule.unplaced).Perm (rules'.map Rule.unplaced)) :
    ((∃ artifact, (ofRules alphabet rules).result = .ok artifact) ↔
      ∃ artifact, (ofRules alphabet rules').result = .ok artifact) ∧
    ∀ artifact artifact', (ofRules alphabet rules).result = .ok artifact →
      (ofRules alphabet rules').result = .ok artifact' → artifact.Agrees artifact' := by
  refine ⟨⟨?_, ?_⟩, ?_⟩
  · rintro ⟨artifact, h⟩
    obtain ⟨artifact', h', -⟩ := exists_agrees hperm h
    exact ⟨artifact', h'⟩
  · rintro ⟨artifact', h'⟩
    obtain ⟨artifact, h, -⟩ := exists_agrees hperm.symm h'
    exact ⟨artifact, h⟩
  · intro artifact artifact' h h'
    obtain ⟨_, hresult, hagrees⟩ := exists_agrees hperm h
    rw [h'] at hresult
    obtain rfl := Except.ok.inj hresult
    exact hagrees

/-- The second of these rules is resolved by way of the first one, wherever that stands. -/
theorem ofRules_perm_two_rules :
    ∃ alphabet artifact artifact', alphabet = ⟨['★'], ['☆'], ' ', by decide, by decide⟩ ∧
      (ofRules alphabet [⟨1, "ab", "x"⟩, ⟨2, "abc", "yz"⟩]).result = .ok artifact ∧
      (ofRules alphabet [⟨7, "abc", "yz"⟩, ⟨3, "ab", "x"⟩]).result = .ok artifact' ∧
      artifact.table.size = 14 ∧ artifact.Agrees artifact' := by
  obtain ⟨alphabet, m, first, second, halphabet, hrules, hgoals, hfirst, hsecond, hspan⟩ :
      ∃ alphabet m first second, alphabet = ⟨['★'], ['☆'], ' ', by decide, by decide⟩ ∧
        Matcher.ofRules alphabet [⟨1, "ab", "x"⟩, ⟨2, "abc", "yz"⟩] = .ok m ∧
        m.goals = [first, second] ∧ (m.evaluateUpTo 1 first).run = some (.ok ⟨1, 0, "x"⟩) ∧
        (m.evaluateUpTo 2 second).run = some (.ok ⟨1, 0, "yz"⟩) ∧
        Table.span (m.edits [⟨1, 0, "x"⟩, ⟨1, 0, "yz"⟩]).entries = 14 :=
    ⟨_, _, _, _, rfl, rfl, rfl, rfl, rfl, rfl⟩
  have hwf := Matcher.wellFormed_of_ofRules hrules
  have hfresh : List.Forall₂ (fun goal edit => m.fresh goal = .ok edit) m.goals
      [⟨1, 0, "x"⟩, ⟨1, 0, "yz"⟩] := by
    rw [hgoals]
    exact .cons ((hwf.fresh_eq_ok_iff (by simp [hgoals])).mpr ⟨1, hfirst⟩)
      (.cons ((hwf.fresh_eq_ok_iff (by simp [hgoals])).mpr ⟨2, hsecond⟩) .nil)
  -- the outputs need three bytes at most
  have hsize : (Pool.greedy ["x", "yz"]).size ≤ Pool.maxSize := by
    have horder : Pool.placementOrder ["x", "yz"] = ["yz", "x"] := by
      simp [Pool.placementOrder, List.mergeSort, Pool.comesFirst, List.merge]
      rfl
    simp only [Pool.greedy, horder, List.foldl_cons, List.foldl_nil, Pool.grow]
    split <;> split <;> decide
  obtain ⟨pool, hpool⟩ := Pool.exists_ofOutputs_iff.mpr
    ⟨(by decide : ∀ output ∈ ["x", "yz"], Pool.isAscii output), hsize⟩
  obtain ⟨words, hwords⟩ := (hwf.exists_words_iff hfresh hpool).mpr (by rw [hspan]; decide)
  have h := ofRules_eq_ok_iff.mpr
    ⟨_, _, m, _, pool, words, rfl, rfl, hrules, hfresh, hpool, hwords, rfl⟩
  have hperm : (([⟨1, "ab", "x"⟩, ⟨2, "abc", "yz"⟩] : List Rule).map Rule.unplaced).Perm
      (([⟨7, "abc", "yz"⟩, ⟨3, "ab", "x"⟩] : List Rule).map Rule.unplaced) := List.Perm.swap _ _ []
  obtain ⟨hcompiles, hagrees⟩ := @ofRules_perm alphabet _ _ hperm
  obtain ⟨artifact', h'⟩ := hcompiles.mp ⟨_, h⟩
  refine ⟨alphabet, _, artifact', halphabet, h, h', ?_, hagrees _ _ h h'⟩
  show words.toArray.size = 14
  rw [List.size_toArray, Trie.length_words hwords, hspan]

end Artifact

end Shorthand
