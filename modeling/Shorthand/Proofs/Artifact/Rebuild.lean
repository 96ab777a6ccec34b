import Shorthand.Proofs.Artifact
import Shorthand.Proofs.Pool.Order
import Shorthand.Proofs.Table.Canonical

/-!
# Artifacts are made again from what their tables say

A table says of every context what its edit is, and nothing of the rules that it was made of. That is
enough to lay it out again. Rules with the same contexts in the order of the table have a trie with
other numbers but with the same edits under the same paths, and the same outputs come to the pool in
another order. Neither the table nor the pool depends on these.

## Main statements

- `Matcher.toList_edits_of_contexts`: a trie of the contexts of a table keeps the edits of the table.
- `Artifact.reencode_decode`: what is read from an artifact is laid out as the same table and pool.
-/

namespace Shorthand

namespace Matcher

variable {m m' : Matcher} {edits : List Edit} {stored : List StoredMatch}

/-- The trie keeps what the table says, under the paths of the contexts. -/
theorem WellFormed.toList_edits_eq_map (h : m.WellFormed) :
    (m.edits edits).toList =
      (m.stored edits).map fun s => (m.alphabet.codes s.context.toList, s.edit) := by
  rw [Matcher.edits, Trie.toList_map, Matcher.stored, List.map_map]
  apply List.map_congr_left
  intro x hx
  obtain ⟨-, hpath⟩ := Alphabet.path_eq_ok_iff.mp (h.path_of_mem_toList hx)
  simp [← hpath]

/-- A trie whose goals have the contexts of some matches keeps their edits under the paths of these. -/
theorem WellFormed.perm_toList_edits_of_contexts (h : m.WellFormed)
    (hcontexts : m.goals.map (·.context) = stored.map (·.context)) :
    (m.edits (stored.map (·.edit))).toList.Perm
      (stored.map fun s => (m.alphabet.codes s.context.toList, s.edit)) := by
  have hlength : (stored.map (·.edit)).length = m.goals.length := by
    simpa using (congrArg List.length hcontexts).symm
  -- of the goals only the contexts matter
  have hzip : List.zipWith (fun (goal : Goal) edit => (m.alphabet.codes goal.context.toList, edit))
      m.goals (stored.map (·.edit)) =
        stored.map fun s => (m.alphabet.codes s.context.toList, s.edit) := by
    let place (context : String) (edit : Edit) := (m.alphabet.codes context.toList, edit)
    calc List.zipWith (fun goal edit => place goal.context edit) m.goals (stored.map (·.edit))
        = List.zipWith place (m.goals.map (·.context)) (stored.map (·.edit)) :=
          List.zipWith_map_left.symm
      _ = List.zipWith place (stored.map (·.context)) (stored.map (·.edit)) := by rw [hcontexts]
      _ = List.zipWith (fun s s' : StoredMatch => place s.context s'.edit) stored stored :=
          List.zipWith_map
      _ = stored.map fun s => place s.context s.edit := List.zipWith_self
  rw [← hzip]
  exact h.perm_toList_edits hlength

/-- A trie of the contexts of a table keeps the edits of the table. -/
theorem toList_edits_of_contexts (h : m.WellFormed) (h' : m'.WellFormed)
    (halphabet : m'.alphabet = m.alphabet)
    (hcontexts : m'.goals.map (·.context) = (m.stored edits).map (·.context)) :
    (m.edits edits).toList = (m'.edits ((m.stored edits).map (·.edit))).toList := by
  apply (h.trie_edits edits).toList_eq_of_mem_iff (h'.trie_edits _)
  intro x
  rw [(h'.perm_toList_edits_of_contexts hcontexts).mem_iff, h.toList_edits_eq_map, halphabet]

end Matcher

namespace Artifact

variable {alphabet : Alphabet} {rules : List Rule} {artifact : Artifact}

/-- What is read from an artifact can be laid out again: rules with the contexts of the table in its
order, whatever their corrections, make a trie, which with the edits that were read has the same table,
and the outputs that were read have the same pool. -/
theorem reencode_decode (h : (ofRules alphabet rules).result = .ok artifact) :
    ∃ stored, (Reader.mk alphabet artifact.table artifact.pool).decode = .ok stored ∧
      ∀ rules' : List Rule, rules'.map (·.context) = stored.map (·.context) →
        ∃ m pool, Matcher.ofRules alphabet rules' = .ok m ∧
          (Pool.ofOutputs (stored.map (·.edit.output))).result = .ok pool ∧
          pool.data = artifact.pool ∧
          ((m.edits (stored.map (·.edit))).encode pool).result = .ok artifact.table := by
  obtain ⟨_, _, m, edits, pool, words, -, -, hrules, hfresh, hpool, hwords, hartifact⟩ :=
    ofRules_eq_ok_iff.mp h
  have hwf := Matcher.wellFormed_of_ofRules hrules
  have hlength := hfresh.length_eq.symm
  obtain rfl := Matcher.alphabet_of_ofRules hrules
  rw [hartifact]
  refine ⟨m.stored edits, hwf.decode_words (Pool.wellFormed_of_ofOutputs hpool) hwords, ?_⟩
  intro rules' hcontexts
  -- the contexts are those of the rules in another order, so they have a trie
  have hperm : (rules.map (·.context)).Perm (rules'.map (·.context)) := by
    rw [hcontexts]
    exact (Matcher.perm_context_of_ofRules hrules hlength).symm
  obtain ⟨m', hrules'⟩ := Matcher.exists_ofRules_of_perm hperm hrules
  have hwf' := Matcher.wellFormed_of_ofRules hrules'
  have hcontexts' : m'.goals.map (·.context) = (m.stored edits).map (·.context) := by
    rw [Matcher.goals_of_ofRules hrules', Matcher.map_context_goalsOf, hcontexts]
  -- it keeps the same edits, so it has the same table
  have htoList := Matcher.toList_edits_of_contexts hwf hwf' (Matcher.alphabet_of_ofRules hrules')
    hcontexts'
  have hwords' :=
    (hwf.trie_edits edits).words_eq_ok_of_toList_eq (hwf'.trie_edits _) htoList hwords
  -- and the outputs are sorted before they are placed
  refine ⟨m', pool, hrules', ?_, rfl, Trie.encode_eq_ok_iff.mpr ⟨words, hwords', rfl⟩⟩
  rw [Pool.ofOutputs_perm (hwf.perm_map_edit_stored (·.output) hlength)]
  exact hpool

/-- The table of two rules is laid out again from other rules, whose corrections are longer. -/
theorem reencode_decode_two_rules :
    ∃ alphabet artifact m pool, alphabet = ⟨['★'], ['☆'], ' ', by decide, by decide⟩ ∧
      (ofRules alphabet [⟨1, "abc", "yz"⟩, ⟨2, "ab", "x"⟩]).result = .ok artifact ∧
      Matcher.ofRules alphabet [⟨1, "ab", "first"⟩, ⟨2, "abc", "second"⟩] = .ok m ∧
      (Pool.ofOutputs ["x", "yz"]).result = .ok pool ∧ pool.data = artifact.pool ∧
      ((m.edits [⟨1, 0, "x"⟩, ⟨1, 0, "yz"⟩]).encode pool).result = .ok artifact.table := by
  obtain ⟨alphabet, artifact, halphabet, hartifact, hdecode⟩ := exists_artifact_two_rules
  obtain ⟨stored, hstored, hrebuild⟩ := reencode_decode hartifact
  obtain rfl := Except.ok.inj (hstored.symm.trans hdecode)
  obtain ⟨m, pool, hrules, hpool, hdata, htable⟩ :=
    hrebuild [⟨1, "ab", "first"⟩, ⟨2, "abc", "second"⟩] rfl
  exact ⟨alphabet, artifact, m, pool, halphabet, hartifact, hrules, hpool, hdata, htable⟩

end Artifact

end Shorthand
