import Shorthand.Artifact
import Shorthand.Proofs.Edit
import Shorthand.Proofs.Resolver.Agreement
import Shorthand.Proofs.Table.RoundTrip

/-!
# When rules are compiled

A list of rules is compiled if each of the steps can do its work, and the steps fail for few reasons
only. The checks that come last always pass: the edits of the resolver fit into match words once
their outputs are ASCII, every branch leads to an entry, and the table that was laid out reads back as
the rules it was made of.

## Main statements

- `Matcher.WellFormed.fits`: the edits of the resolver fit into tables.
- `Matcher.WellFormed.verify_eq_ok`: a table passes the comparison with its rules.
- `Artifact.ofRules_eq_ok_iff`: the steps of a compilation that succeeds, and what it makes of them.
- `Artifact.compiles_iff`: which rules are compiled, and what is said about others.
-/

namespace Shorthand

/-! ## Edits -/

namespace Matcher

variable {m : Matcher} {edits : List Edit} {pool : Pool} {words : List UInt16}

namespace WellFormed

variable (hwf : m.WellFormed)
include hwf

/-- The edits of the resolver fit into tables if their outputs are in the pool. -/
theorem fits (hfresh : List.Forall₂ (fun goal edit => m.fresh goal = .ok edit) m.goals edits)
    (hpool : (Pool.ofOutputs (edits.map (·.output))).result = .ok pool) {edit : Edit}
    (hedit : edit ∈ edits) : edit.Fits pool := by
  have hmem : edit.output ∈ edits.map (·.output) := List.mem_map_of_mem hedit
  have hall := (Pool.exists_ofOutputs_iff.mp ⟨pool, hpool⟩).1
  obtain ⟨goal, hgoal, hedit⟩ := exists_mem_of_forall₂ hfresh hedit
  obtain ⟨shown, -, hattempt⟩ := evaluates_ok_iff.mp ((hwf.fresh_eq_ok_iff hgoal).mp hedit)
  obtain ⟨hfunc, hbackspaces, hlength⟩ := Goal.limits_of_edit hattempt
  refine ⟨(Pool.isSome_offset?_iff hpool).mpr hmem, hfunc ▸ hwf.outputFunc_lt goal hgoal,
    Nat.lt_succ_of_le hbackspaces, ?_⟩
  -- lengths count characters, and the bytes of an ASCII text are as many
  rw [Pool.utf8ByteSize_eq_length (hall _ hmem)]
  exact Nat.lt_succ_of_le hlength

/-- Then the trie with these edits has words if they are not too many. -/
theorem exists_words_iff
    (hfresh : List.Forall₂ (fun goal edit => m.fresh goal = .ok edit) m.goals edits)
    (hpool : (Pool.ofOutputs (edits.map (·.output))).result = .ok pool) :
    (∃ words, (m.edits edits).words pool = .ok words) ↔
      Table.span (m.edits edits).entries ≤ Table.maxSize :=
  Trie.exists_words_iff fun _ hx =>
    hwf.fits hfresh hpool (hwf.mem_of_mem_edits hfresh.length_eq.symm hx)

/-! ## Comparison -/

/-- What was read from a table is found under its contexts. -/
theorem pairwise_context_stored (hlength : edits.length = m.goals.length) :
    ((m.stored edits).map fun s => (s.context, s.edit)).Pairwise
      fun x y => (x.1 == y.1) = false := by
  -- up to their order, these are the contexts of the goals
  have hcontexts : ((m.stored edits).map (·.context)).Nodup :=
    (hwf.perm_context_stored hlength).nodup_iff.mpr hwf.nodup_context
  refine List.pairwise_map.mpr ((List.pairwise_map.mp hcontexts).imp fun hne => ?_)
  simpa using hne

/-- A table passes the comparison with the rules that it was made of. -/
theorem verify_eq_ok (hlength : edits.length = m.goals.length) (hpool : pool.WellFormed)
    (hwords : (m.edits edits).words pool = .ok words) :
    Artifact.verify m edits words.toArray pool = .ok () := by
  have hdistinct := hwf.pairwise_context_stored hlength
  unfold Artifact.verify
  rw [hwf.decode_words hpool hwords]
  simp only
  -- as many contexts were read as there are goals
  have hsize : (m.stored edits).length = m.goals.length := by
    rw [(hwf.perm_stored hlength).length_eq, List.length_zipWith, hlength, Nat.min_self]
  rw [Std.HashMap.size_ofList hdistinct, List.length_map, hsize, if_neg (fun h => h rfl),
    forM_eq_ok_iff]
  rintro ⟨goal, edit⟩ hmem
  -- and each goal is found with its edit
  have hstored : (⟨goal.context, edit⟩ : StoredMatch) ∈ m.stored edits := by
    rw [(hwf.perm_stored hlength).mem_iff, ← List.map_uncurry_zip_eq_zipWith]
    exact List.mem_map.mpr ⟨_, hmem, rfl⟩
  have hfound : (Std.HashMap.ofList ((m.stored edits).map fun s => (s.context, s.edit)))[
      goal.context]? = some edit :=
    Std.HashMap.getElem?_ofList_of_mem BEq.rfl hdistinct (List.mem_map.mpr ⟨_, hstored, rfl⟩)
  simp [Artifact.compare, hfound]

end WellFormed

end Matcher

/-! ## Steps -/

namespace Artifact

variable {m : Matcher} {rules : List Rule} {shortest longest : Rule} {artifact : Artifact}
  {edits : List Edit} {pool : Pool} {words : List UInt16} {e : CompileError}

section

variable (hwf : m.WellFormed)
include hwf

/-- A compilation succeeds if these steps do, and this is what it makes of them. The comparison always
passes. -/
theorem ofMatcher_eq_ok_iff :
    (ofMatcher m rules shortest longest).result = .ok artifact ↔
      ∃ edits pool words, List.Forall₂ (fun goal edit => m.fresh goal = .ok edit) m.goals edits ∧
        (Pool.ofOutputs (edits.map (·.output))).result = .ok pool ∧
        (m.edits edits).words pool = .ok words ∧
        artifact = ⟨words.toArray, pool.data, rules, shortest.context, longest.context,
          pool.maxLength, (edits.map (·.backspaces)).foldl max 0, m.alphabet.magicChars.length⟩ := by
  simp only [ofMatcher, LoggedExcept.result_bind, LoggedExcept.result_mapError, bind_eq_ok_iff,
    mapError_eq_ok_iff, hwf.result_resolveAll, mapM_eq_ok_iff]
  constructor
  · rintro ⟨edits, hfresh, pool, hpool, table, htable, -, -, -, -, h⟩
    obtain ⟨words, hwords, rfl⟩ := Trie.encode_eq_ok_iff.mp htable
    exact ⟨edits, pool, words, hfresh, hpool, hwords, (Except.ok.inj h).symm⟩
  · rintro ⟨edits, pool, words, hfresh, hpool, hwords, rfl⟩
    have hverify :=
      hwf.verify_eq_ok hfresh.length_eq.symm (Pool.wellFormed_of_ofOutputs hpool) hwords
    exact ⟨edits, hfresh, pool, hpool, _, Trie.encode_eq_ok_iff.mpr ⟨words, hwords, rfl⟩, (),
      hverify, (), rfl, rfl⟩

/-- The steps of a compilation that succeeds. -/
theorem steps_of_ofMatcher (h : (ofMatcher m rules shortest longest).result = .ok artifact) :
    ∃ edits pool words, List.Forall₂ (fun goal edit => m.fresh goal = .ok edit) m.goals edits ∧
      (Pool.ofOutputs (edits.map (·.output))).result = .ok pool ∧
      (m.edits edits).words pool = .ok words ∧
      artifact.table = words.toArray ∧ artifact.pool = pool.data := by
  obtain ⟨edits, pool, words, hfresh, hpool, hwords, rfl⟩ := (ofMatcher_eq_ok_iff hwf).mp h
  exact ⟨edits, pool, words, hfresh, hpool, hwords, rfl, rfl⟩

/-- If these steps succeed, so does the compilation: the comparison always passes. -/
theorem exists_ofMatcher
    (hfresh : List.Forall₂ (fun goal edit => m.fresh goal = .ok edit) m.goals edits)
    (hpool : (Pool.ofOutputs (edits.map (·.output))).result = .ok pool)
    (hwords : (m.edits edits).words pool = .ok words) :
    ∃ artifact, (ofMatcher m rules shortest longest).result = .ok artifact :=
  ⟨_, (ofMatcher_eq_ok_iff hwf).mpr ⟨edits, pool, words, hfresh, hpool, hwords, rfl⟩⟩

/-- If one of them fails, this is what is said. -/
theorem error_of_ofMatcher (h : (ofMatcher m rules shortest longest).result = .error e) :
    (∃ e', e = .resolve e') ∨ (∃ e', e = .pool e') ∨
      ∃ offset, e = .layout (.tableOverflow offset) := by
  simp only [ofMatcher, LoggedExcept.result_bind, LoggedExcept.result_mapError,
    bind_eq_error_iff, mapError_eq_error_iff, mapError_eq_ok_iff, hwf.result_resolveAll,
    mapM_eq_ok_iff] at h
  rcases h with ⟨e', -, rfl⟩ | ⟨edits, hfresh, h⟩
  · exact .inl ⟨e', rfl⟩
  rcases h with ⟨e', -, rfl⟩ | ⟨pool, hpool, h⟩
  · exact .inr (.inl ⟨e', rfl⟩)
  have hlength := hfresh.length_eq.symm
  rcases h with ⟨e', hwords, rfl⟩ | ⟨table, htable, h⟩
  · obtain ⟨offset, rfl, -⟩ := Trie.exists_eq_tableOverflow
      (fun x hx => hwf.fits hfresh hpool (hwf.mem_of_mem_edits hlength hx))
      (Trie.encode_eq_error_iff.mp hwords)
    exact .inr (.inr ⟨offset, rfl⟩)
  · -- the comparison passes, and nothing fails after it
    obtain ⟨words, hwords, rfl⟩ := Trie.encode_eq_ok_iff.mp htable
    have hverify := hwf.verify_eq_ok hlength (Pool.wellFormed_of_ofOutputs hpool) hwords
    rw [LoggedExcept.result_ofExcept, hverify] at h
    rcases h with h | ⟨-, -, h⟩
    · cases h
    · rcases h with h | ⟨-, -, h⟩ <;> cases h

end

/-- Rules are compiled by way of their matcher. -/
theorem exists_result_ofRules (alphabet : Alphabet) (hne : rules ≠ []) :
    ∃ shortest longest, (ofRules alphabet rules).result =
      (Matcher.ofRules alphabet rules).mapError .matcher >>= fun m =>
        (ofMatcher m rules shortest longest).result := by
  obtain ⟨shortest, hshortest⟩ := Option.isSome_iff_exists.mp
    (List.isSome_minOn?_iff.mpr hne : (rules.minOn? (·.contextLength)).isSome)
  obtain ⟨longest, hlongest⟩ := Option.isSome_iff_exists.mp
    (List.isSome_maxOn?_iff.mpr hne : (rules.maxOn? (·.contextLength)).isSome)
  refine ⟨shortest, longest, ?_⟩
  rw [ofRules, hshortest, hlongest]
  simp only [LoggedExcept.result_bind, LoggedExcept.result_mapError, LoggedExcept.result_ofExcept]

theorem result_ofRules_nil (alphabet : Alphabet) :
    (ofRules alphabet []).result = .error .emptyDictionary := by
  rw [ofRules, List.minOn?_nil]
  rfl

/-- If rules are not compiled, this is what is said. -/
theorem error_of_ofRules {alphabet : Alphabet} (h : (ofRules alphabet rules).result = .error e) :
    e = .emptyDictionary ∨ (∃ e', Matcher.ofRules alphabet rules = .error e' ∧ e = .matcher e') ∨
      (∃ e', e = .resolve e') ∨ (∃ e', e = .pool e') ∨ ∃ offset, e = .layout (.tableOverflow offset) := by
  rcases eq_or_ne rules [] with rfl | hne
  · rw [result_ofRules_nil] at h
    exact .inl (Except.error.inj h).symm
  obtain ⟨shortest, longest, hresult⟩ := exists_result_ofRules alphabet hne
  rw [hresult] at h
  rcases bind_eq_error_iff.mp h with h | ⟨m, hm, h⟩
  · obtain ⟨e', he, heq⟩ := mapError_eq_error_iff.mp h
    exact .inr (.inl ⟨e', he, heq.symm⟩)
  · have hwf := Matcher.wellFormed_of_ofRules (mapError_eq_ok_iff.mp hm)
    exact .inr (.inr (error_of_ofMatcher hwf h))

/-- What is said about the matcher is what its construction said. -/
theorem ofRules_eq_matcher_iff {alphabet : Alphabet} {e : MatcherError} :
    (ofRules alphabet rules).result = .error (.matcher e) ↔
      Matcher.ofRules alphabet rules = .error e := by
  constructor
  · intro h
    rcases error_of_ofRules h with heq | ⟨e', he, heq⟩ | ⟨_, heq⟩ | ⟨_, heq⟩ | ⟨_, heq⟩ <;> cases heq
    -- no other step speaks of the matcher
    exact he
  · intro h
    have hne : rules ≠ [] := by
      rintro rfl
      cases h
    obtain ⟨shortest, longest, hresult⟩ := exists_result_ofRules alphabet hne
    rw [hresult, h]
    rfl

/-- A list of rules is compiled if it has a matcher and the steps succeed. -/
theorem ofRules_eq_ok_iff {alphabet : Alphabet} :
    (ofRules alphabet rules).result = .ok artifact ↔
      ∃ shortest longest m edits pool words, rules.minOn? (·.contextLength) = some shortest ∧
        rules.maxOn? (·.contextLength) = some longest ∧ Matcher.ofRules alphabet rules = .ok m ∧
        List.Forall₂ (fun goal edit => m.fresh goal = .ok edit) m.goals edits ∧
        (Pool.ofOutputs (edits.map (·.output))).result = .ok pool ∧
        (m.edits edits).words pool = .ok words ∧
        artifact = ⟨words.toArray, pool.data, rules, shortest.context, longest.context,
          pool.maxLength, (edits.map (·.backspaces)).foldl max 0, alphabet.magicChars.length⟩ := by
  unfold ofRules
  split
  next shortest longest hshortest hlongest =>
    simp only [LoggedExcept.result_bind, LoggedExcept.result_mapError,
      LoggedExcept.result_ofExcept, bind_eq_ok_iff, mapError_eq_ok_iff]
    constructor
    · rintro ⟨m, hrules, h⟩
      have hwf := Matcher.wellFormed_of_ofRules hrules
      obtain ⟨edits, pool, words, hfresh, hpool, hwords, hartifact⟩ := (ofMatcher_eq_ok_iff hwf).mp h
      rw [Matcher.alphabet_of_ofRules hrules] at hartifact
      exact ⟨shortest, longest, m, edits, pool, words, hshortest, hlongest, hrules, hfresh, hpool,
        hwords, hartifact⟩
    · rintro ⟨_, _, m, edits, pool, words, hmin, hmax, hrules, hfresh, hpool, hwords, hartifact⟩
      obtain rfl := Option.some.inj (hshortest.symm.trans hmin)
      obtain rfl := Option.some.inj (hlongest.symm.trans hmax)
      refine ⟨m, hrules, (ofMatcher_eq_ok_iff (Matcher.wellFormed_of_ofRules hrules)).mpr ?_⟩
      rw [Matcher.alphabet_of_ofRules hrules]
      exact ⟨edits, pool, words, hfresh, hpool, hwords, hartifact⟩
  next hnone =>
    simp only [LoggedExcept.result_throw, reduceCtorEq, false_iff]
    rintro ⟨shortest, longest, _, _, _, _, hshortest, hlongest, -⟩
    exact hnone shortest longest hshortest hlongest

/-- Rules that all resolve are compiled if their outputs and their trie are not too large, and then their
edits can be read from the table. The pool has their outputs. -/
theorem exists_ofRules {alphabet : Alphabet} (hne : rules ≠ [])
    (hrules : Matcher.ofRules alphabet rules = .ok m)
    (hfresh : List.Forall₂ (fun goal edit => m.fresh goal = .ok edit) m.goals edits)
    (hascii : ∀ output ∈ edits.map (·.output), Pool.isAscii output)
    (hsize : ((edits.map (·.output)).map String.length).sum ≤ Pool.maxSize)
    (hspan : Table.span (m.edits edits).entries ≤ Table.maxSize) :
    ∃ artifact, (ofRules alphabet rules).result = .ok artifact ∧
      (Reader.mk alphabet artifact.table artifact.pool).decode = .ok (m.stored edits) ∧
      artifact.pool = Pool.greedy (edits.map (·.output)) := by
  have hwf := Matcher.wellFormed_of_ofRules hrules
  obtain ⟨shortest, hshortest⟩ := Option.isSome_iff_exists.mp
    (List.isSome_minOn?_iff.mpr hne : (rules.minOn? (·.contextLength)).isSome)
  obtain ⟨longest, hlongest⟩ := Option.isSome_iff_exists.mp
    (List.isSome_maxOn?_iff.mpr hne : (rules.maxOn? (·.contextLength)).isSome)
  obtain ⟨pool, hpool⟩ :=
    Pool.exists_ofOutputs_iff.mpr ⟨hascii, Nat.le_trans (Pool.size_greedy_le _) hsize⟩
  obtain ⟨words, hwords⟩ := (hwf.exists_words_iff hfresh hpool).mpr hspan
  have hdecode := hwf.decode_words (Pool.wellFormed_of_ofOutputs hpool) hwords
  rw [Matcher.alphabet_of_ofRules hrules] at hdecode
  exact ⟨_, ofRules_eq_ok_iff.mpr ⟨shortest, longest, m, edits, pool, words, hshortest, hlongest,
    hrules, hfresh, hpool, hwords, rfl⟩, hdecode, Pool.data_of_ofOutputs hpool⟩

/-- The first of these rules is resolved by way of the second one, which comes first in the table. -/
theorem exists_artifact_two_rules :
    ∃ alphabet artifact, alphabet = ⟨['★'], ['☆'], ' ', by decide, by decide⟩ ∧
      (ofRules alphabet [⟨1, "abc", "yz"⟩, ⟨2, "ab", "x"⟩]).result = .ok artifact ∧
      (Reader.mk alphabet artifact.table artifact.pool).decode =
        .ok [⟨"ab", 1, 0, "x"⟩, ⟨"abc", 1, 0, "yz"⟩] := by
  obtain ⟨m, first, second, hrules, hgoals, hfirst, hsecond, hstored, hspan⟩ :
      ∃ m first second, Matcher.ofRules ⟨['★'], ['☆'], ' ', by decide, by decide⟩
          [⟨1, "abc", "yz"⟩, ⟨2, "ab", "x"⟩] = .ok m ∧ m.goals = [first, second] ∧
        (m.evaluateUpTo 2 first).run = some (.ok ⟨1, 0, "yz"⟩) ∧
        (m.evaluateUpTo 1 second).run = some (.ok ⟨1, 0, "x"⟩) ∧
        m.stored [⟨1, 0, "yz"⟩, ⟨1, 0, "x"⟩] = [⟨"ab", 1, 0, "x"⟩, ⟨"abc", 1, 0, "yz"⟩] ∧
        Table.span (m.edits [⟨1, 0, "yz"⟩, ⟨1, 0, "x"⟩]).entries ≤ Table.maxSize :=
    ⟨_, _, _, rfl, rfl, rfl, rfl, rfl, by decide⟩
  have hwf := Matcher.wellFormed_of_ofRules hrules
  have hfresh : List.Forall₂ (fun goal edit => m.fresh goal = .ok edit) m.goals
      [⟨1, 0, "yz"⟩, ⟨1, 0, "x"⟩] := by
    rw [hgoals]
    exact .cons ((hwf.fresh_eq_ok_iff (by simp [hgoals])).mpr ⟨2, hfirst⟩)
      (.cons ((hwf.fresh_eq_ok_iff (by simp [hgoals])).mpr ⟨1, hsecond⟩) .nil)
  obtain ⟨artifact, hartifact, hdecode, -⟩ := exists_ofRules (by simp) hrules hfresh
    (by decide : ∀ output ∈ ["yz", "x"], Pool.isAscii output) (by decide) hspan
  exact ⟨_, artifact, rfl, hartifact, hstored ▸ hdecode⟩

/-! ## Compilation -/

/-- A list of rules is compiled if it is not empty, all characters have codes, no context is repeated,
every rule resolves to an edit with an ASCII output, and neither the pool nor the table grows too large.
Otherwise this is what fails: neither the limits of an entry nor the comparison that comes last. -/
theorem compiles_iff (alphabet : Alphabet) (rules : List Rule) :
    ((∃ artifact, (ofRules alphabet rules).result = .ok artifact) ↔
      rules ≠ [] ∧ (∀ r ∈ rules, ∀ c ∈ r.context.toList, alphabet.contains c) ∧
      (rules.map (·.context)).Nodup ∧
      ∃ m edits, Matcher.ofRules alphabet rules = .ok m ∧
        List.Forall₂ (fun goal edit => m.fresh goal = .ok edit) m.goals edits ∧
        (∀ edit ∈ edits, Pool.isAscii edit.output) ∧
        (Pool.greedy (edits.map (·.output))).size ≤ Pool.maxSize ∧
        Table.span (m.edits edits).entries ≤ Table.maxSize) ∧
    (∀ artifact, (ofRules alphabet rules).result = .ok artifact →
      ∃ m edits, Matcher.ofRules alphabet rules = .ok m ∧
        List.Forall₂ (fun goal edit => m.fresh goal = .ok edit) m.goals edits ∧
        artifact.pool = Pool.greedy (edits.map (·.output)) ∧
        artifact.table.size = Table.span (m.edits edits).entries) ∧
    ∀ e, (ofRules alphabet rules).result = .error e →
      e = .emptyDictionary ∨ (∃ e', e = .matcher e') ∨ (∃ e', e = .resolve e') ∨
        (∃ e', e = .pool e') ∨ ∃ offset, e = .layout (.tableOverflow offset) := by
  -- without rules nothing else is looked at
  rcases eq_or_ne rules [] with rfl | hne
  · simp [result_ofRules_nil]
  obtain ⟨shortest, longest, hresult⟩ := exists_result_ofRules alphabet hne
  rw [hresult]
  refine ⟨?_, ?_, ?_⟩
  · simp only [bind_eq_ok_iff, mapError_eq_ok_iff]
    constructor
    · rintro ⟨artifact, m, hrules, h⟩
      have hwf := Matcher.wellFormed_of_ofRules hrules
      obtain ⟨edits, pool, words, hfresh, hpool, hwords, -, -⟩ := steps_of_ofMatcher hwf h
      -- what each step says by its success
      obtain ⟨hall, hnodup⟩ := Matcher.exists_ofRules_iff.mp ⟨m, hrules⟩
      obtain ⟨hascii, hsize⟩ := Pool.exists_ofOutputs_iff.mp ⟨pool, hpool⟩
      have hspan := (hwf.exists_words_iff hfresh hpool).mp ⟨words, hwords⟩
      exact ⟨hne, hall, hnodup, m, edits, hrules, hfresh, List.forall_mem_map.mp hascii, hsize, hspan⟩
    · rintro ⟨-, -, -, m, edits, hrules, hfresh, hascii, hsize, hspan⟩
      have hwf := Matcher.wellFormed_of_ofRules hrules
      -- each step can do its work, given the ones before
      obtain ⟨pool, hpool⟩ := Pool.exists_ofOutputs_iff.mpr ⟨List.forall_mem_map.mpr hascii, hsize⟩
      obtain ⟨words, hwords⟩ := (hwf.exists_words_iff hfresh hpool).mpr hspan
      obtain ⟨artifact, h⟩ := exists_ofMatcher hwf hfresh hpool hwords
      exact ⟨artifact, m, hrules, h⟩
  · intro artifact h
    simp only [bind_eq_ok_iff, mapError_eq_ok_iff] at h
    obtain ⟨m, hrules, h⟩ := h
    have hwf := Matcher.wellFormed_of_ofRules hrules
    obtain ⟨edits, pool, words, hfresh, hpool, hwords, htable, hdata⟩ := steps_of_ofMatcher hwf h
    refine ⟨m, edits, hrules, hfresh, by rw [hdata, Pool.data_of_ofOutputs hpool], ?_⟩
    rw [htable, List.size_toArray, Trie.length_words hwords]
  · intro e h
    simp only [bind_eq_error_iff, mapError_eq_error_iff, mapError_eq_ok_iff] at h
    rcases h with ⟨e', -, rfl⟩ | ⟨m, hrules, h⟩
    · exact .inr (.inl ⟨e', rfl⟩)
    · exact .inr (.inr (error_of_ofMatcher (Matcher.wellFormed_of_ofRules hrules) h))

end Artifact

end Shorthand
