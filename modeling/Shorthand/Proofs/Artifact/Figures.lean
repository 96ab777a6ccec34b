import Shorthand.Proofs.Artifact
import Shorthand.Proofs.Pool.Blocks
import Shorthand.Proofs.Table.Reading

/-!
# Figures

The figures of an artifact size the buffers of a runtime that reads its table. They are taken from
the rules, the edits and the outputs in the pool while the table is made, and they agree with what is
read from the table in the end: the same contexts and edits are there, and an output that was placed
has a byte for each of its characters.

## Main statements

- `Reader.ReadsAt.limits`: what is read from an entry stays within its fields and the pool.
- `Pool.max?_of_ofOutputs`: a pool knows the length of its longest output.
- `Artifact.figures_agree`: the figures are those of the matches of the table.
-/

namespace Shorthand

/-! ## Extreme elements of lists -/

section

variable {l l' : List Nat}

theorem max?_eq_some_foldl (hne : l ≠ []) : l.max? = some (l.foldl max 0) := by
  obtain ⟨n, hn⟩ := Option.isSome_iff_exists.mp (List.isSome_max?_of_ne_nil hne)
  rw [List.foldl_max, hn, Option.getD_some, Nat.zero_max]

theorem max?_eq_of_mem_iff (h : ∀ n, n ∈ l ↔ n ∈ l') : l.max? = l'.max? := by
  apply Option.ext
  intro n
  simp only [List.max?_eq_some_iff, h]

theorem min?_eq_of_mem_iff (h : ∀ n, n ∈ l ↔ n ∈ l') : l.min? = l'.min? := by
  apply Option.ext
  intro n
  simp only [List.min?_eq_some_iff, h]

variable {α : Type} {f : α → Nat} {items : List α} {a : α}

/-- The element that is chosen has the least value. -/
theorem min?_of_minOn? (h : items.minOn? f = some a) : (items.map f).min? = some (f a) := by
  rw [List.min?_eq_some_iff]
  refine ⟨List.mem_map_of_mem (List.minOn?_mem h), List.forall_mem_map.mpr ?_⟩
  intro b hb
  simpa [h] using List.apply_get_minOn?_le_of_mem (f := f) hb

theorem max?_of_maxOn? (h : items.maxOn? f = some a) : (items.map f).max? = some (f a) := by
  rw [List.max?_eq_some_iff]
  refine ⟨List.mem_map_of_mem (List.maxOn?_mem h), List.forall_mem_map.mpr ?_⟩
  intro b hb
  simpa [h] using List.le_apply_get_maxOn?_of_mem (f := f) hb

/-- It is the first one that has this value. -/
theorem find?_of_minOn? (h : items.minOn? f = some a) :
    items.find? (fun b => f b = f a) = some a := by
  have hne : items ≠ [] := List.ne_nil_of_mem (List.minOn?_mem h)
  have hmin : items.minOn f hne = a := List.minOn_eq_of_minOn?_eq_some h
  rw [List.find?_eq_some_iff_getElem]
  refine ⟨by simp, items.minIdxOn f hne, List.minIdxOn_lt_length hne, ?_, ?_⟩
  · rw [List.getElem_minIdxOn, hmin]
  · intro j hj
    have hlt := List.apply_minOn_lt_apply_getElem_of_lt_minIdxOn hne hj
    rw [hmin] at hlt
    simp [Nat.ne_of_gt hlt]

theorem find?_of_maxOn? (h : items.maxOn? f = some a) :
    items.find? (fun b => f b = f a) = some a := by
  have hne : items ≠ [] := List.ne_nil_of_mem (List.maxOn?_mem h)
  have hmax : items.maxOn f hne = a := List.maxOn_eq_of_maxOn?_eq_some h
  rw [List.find?_eq_some_iff_getElem]
  refine ⟨by simp, items.maxIdxOn f hne, List.maxIdxOn_lt_length hne, ?_, ?_⟩
  · rw [List.getElem_maxIdxOn, hmax]
  · intro j hj
    have hlt := List.apply_maxOn_lt_apply_getElem_of_lt_maxIdxOn hne hj
    rw [hmax] at hlt
    simp [Nat.ne_of_lt hlt]

end

/-! ## Entries and pools -/

/-- What is read from an entry fits into the fields of its match word, and its output stands within the
pool. -/
theorem Reader.ReadsAt.limits {r : Reader} {position : Nat} {s : StoredMatch}
    (h : r.ReadsAt position s) :
    s.edit.backspaces ≤ 15 ∧ s.edit.outputFunc ≤ 7 ∧ s.edit.output.length ≤ 127 ∧
      ∃ word first, r.table[position]? = some word ∧ Table.isMatch word ∧
        r.table[position + 1]? = some first ∧
        (MatchWord.ofWord word).length = s.edit.output.length ∧
        first.toNat + s.edit.output.length ≤ r.pool.size ∧
        (r.pool.extract first.toNat (first.toNat + s.edit.output.length)).toList.map
          (fun byte => Char.ofNat byte.toNat) = s.edit.output.toList := by
  obtain ⟨word, first, path, hword, hmatch, hfirst, hstored⟩ := h
  obtain ⟨hin, context, -, rfl⟩ := storedMatch_eq_ok_iff.mp hstored
  -- there are as many bytes as the match word says, since the pool has all of them
  have hlength : (String.ofList ((r.pool.extract first.toNat
      (first.toNat + (MatchWord.ofWord word).length)).toList.map
        fun byte => Char.ofNat byte.toNat)).length = (MatchWord.ofWord word).length := by
    rw [String.length_ofList, List.length_map, Array.length_toList, Array.size_extract]
    omega
  refine ⟨?_, ?_, ?_, word, first, ?_, hmatch, ?_, hlength.symm, ?_, ?_⟩
  · exact Nat.le_of_lt_succ (Nat.mod_lt _ (by decide))
  · exact Nat.le_of_lt_succ (Nat.mod_lt _ (by decide))
  · rw [hlength]
    exact Nat.le_of_lt_succ (Nat.mod_lt _ (by decide))
  · exact Array.getElem?_eq_some_iff.mpr (wordAt_eq_ok_iff.mp hword)
  · exact Array.getElem?_eq_some_iff.mpr (wordAt_eq_ok_iff.mp hfirst)
  · rw [hlength]
    exact hin
  · rw [hlength, String.toList_ofList]

/-- A pool knows the length of its longest output. -/
theorem Pool.max?_of_ofOutputs {outputs : List String} {pool : Pool} (hne : outputs ≠ [])
    (h : (ofOutputs outputs).result = .ok pool) :
    (outputs.map (·.length)).max? = some pool.maxLength := by
  have hall := (exists_ofOutputs_iff.mp ⟨pool, h⟩).1
  -- an ASCII output has as many bytes as characters
  have hlengths : outputs.map (·.length) = outputs.map (·.utf8ByteSize) :=
    List.map_congr_left fun output houtput => (utf8ByteSize_eq_length (hall output houtput)).symm
  have hsizes : outputs.map (·.utf8ByteSize) ≠ [] := by simpa using hne
  obtain ⟨n, hn⟩ := Option.isSome_iff_exists.mp (List.isSome_max?_of_ne_nil hsizes)
  rw [hlengths, maxLength_eq_max? h, hn, Option.getD_some]

/-! ## Artifacts -/

namespace Artifact

variable {alphabet : Alphabet} {rules : List Rule} {artifact : Artifact}

/-- The figures of an artifact are those of the matches that are read from its table, and the sequences
that are named are the first rules of their lengths. What is read fits into the fields of an entry, and
each output is found in the pool at the place that the entry names. -/
theorem figures_agree (h : (ofRules alphabet rules).result = .ok artifact) :
    ∃ stored, (Reader.mk alphabet artifact.table artifact.pool).decode = .ok stored ∧
      (stored.map (·.edit.backspaces)).max? = some artifact.maxBackspaces ∧
      (stored.map (·.edit.output.length)).max? = some artifact.maxOutputLength ∧
      (stored.map (·.context.length)).min? = some artifact.minSequence.length ∧
      (stored.map (·.context.length)).max? = some artifact.maxSequence.length ∧
      (rules.find? (·.context.length = artifact.minSequence.length)).map (·.context) =
        some artifact.minSequence ∧
      (rules.find? (·.context.length = artifact.maxSequence.length)).map (·.context) =
        some artifact.maxSequence ∧
      ∀ s ∈ stored, s.edit.backspaces ≤ 15 ∧ s.edit.outputFunc ≤ 7 ∧ s.edit.output.length ≤ 127 ∧
        s.edit.output.utf8ByteSize = s.edit.output.length ∧
        ∃ position word first, artifact.table[position]? = some word ∧ Table.isMatch word ∧
          artifact.table[position + 1]? = some first ∧
          (MatchWord.ofWord word).length = s.edit.output.length ∧
          first.toNat + s.edit.output.length ≤ artifact.pool.size ∧
          (artifact.pool.extract first.toNat (first.toNat + s.edit.output.length)).toList.map
            (fun byte => Char.ofNat byte.toNat) = s.edit.output.toList := by
  obtain ⟨shortest, longest, m, edits, pool, words, hshortest, hlongest, hrules, hfresh, hpool,
    hwords, hartifact⟩ := ofRules_eq_ok_iff.mp h
  have hwf := Matcher.wellFormed_of_ofRules hrules
  have hlength := hfresh.length_eq.symm
  have hdecode := hwf.decode_words (Pool.wellFormed_of_ofOutputs hpool) hwords
  obtain rfl := Matcher.alphabet_of_ofRules hrules
  -- the table has the edits and the contexts of the rules in another order
  have hbackspaces := hwf.perm_map_edit_stored (·.backspaces) hlength
  have houtputs := hwf.perm_map_edit_stored (·.output) hlength
  have hsizes := hwf.perm_map_edit_stored (·.output.length) hlength
  have hlengths : ((m.stored edits).map (·.context.length)).Perm (rules.map (·.contextLength)) := by
    simpa [Function.comp_def, Rule.contextLength] using
      (Matcher.perm_context_of_ofRules hrules hlength).map (·.length)
  -- there is a rule, so there is an edit
  have hne : edits ≠ [] := by
    rintro rfl
    rw [Matcher.goals_of_ofRules hrules, Matcher.length_goalsOf] at hlength
    rw [List.length_eq_zero_iff.mp hlength.symm] at hshortest
    cases hshortest
  rw [hartifact]
  refine ⟨m.stored edits, hdecode, ?_, ?_, ?_, ?_, ?_, ?_, ?_⟩
  · rw [max?_eq_of_mem_iff fun _ => hbackspaces.mem_iff]
    exact max?_eq_some_foldl (by simpa using hne)
  · rw [max?_eq_of_mem_iff fun _ => hsizes.mem_iff]
    simpa [Function.comp_def] using Pool.max?_of_ofOutputs (by simpa using hne) hpool
  · rw [min?_eq_of_mem_iff fun _ => hlengths.mem_iff]
    exact min?_of_minOn? hshortest
  · rw [max?_eq_of_mem_iff fun _ => hlengths.mem_iff]
    exact max?_of_maxOn? hlongest
  · show (rules.find? (·.contextLength = shortest.contextLength)).map (·.context) = _
    rw [find?_of_minOn? hshortest]
    rfl
  · show (rules.find? (·.contextLength = longest.contextLength)).map (·.context) = _
    rw [find?_of_maxOn? hlongest]
    rfl
  · intro s hs
    obtain ⟨position, hreads⟩ := Reader.exists_readsAt_of_decode hdecode s hs
    obtain ⟨hbackspaces, hfunc, houtput, hplace⟩ := hreads.limits
    refine ⟨hbackspaces, hfunc, houtput, ?_, position, hplace⟩
    -- only ASCII outputs have a pool
    have hascii := (Pool.exists_ofOutputs_iff.mp ⟨pool, hpool⟩).1
    exact Pool.utf8ByteSize_eq_length
      (hascii _ (houtputs.mem_iff.mp (List.mem_map_of_mem hs)))

/-- Of these two rules the first one has the longer context and output. -/
theorem figures_agree_two_rules :
    ∃ alphabet artifact, alphabet = ⟨['★'], ['☆'], ' ', by decide, by decide⟩ ∧
      (ofRules alphabet [⟨1, "abc", "yz"⟩, ⟨2, "ab", "x"⟩]).result = .ok artifact ∧
      (Reader.mk alphabet artifact.table artifact.pool).decode =
        .ok [⟨"ab", 1, 0, "x"⟩, ⟨"abc", 1, 0, "yz"⟩] ∧
      artifact.maxBackspaces = 1 ∧ artifact.maxOutputLength = 2 ∧
      artifact.minSequence.length = 2 ∧ artifact.maxSequence.length = 3 ∧
      artifact.minSequence = "ab" ∧ artifact.maxSequence = "abc" := by
  obtain ⟨alphabet, artifact, halphabet, hartifact, hdecode⟩ := exists_artifact_two_rules
  obtain ⟨stored, hstored, hbackspaces, houtput, hshortest, hlongest, hfirst, hfirst', -⟩ :=
    figures_agree hartifact
  obtain rfl := Except.ok.inj (hstored.symm.trans hdecode)
  obtain hshortest : 2 = artifact.minSequence.length := Option.some.inj hshortest
  obtain hlongest : 3 = artifact.maxSequence.length := Option.some.inj hlongest
  rw [← hshortest] at hfirst
  rw [← hlongest] at hfirst'
  exact ⟨alphabet, artifact, halphabet, hartifact, hdecode, (Option.some.inj hbackspaces).symm,
    (Option.some.inj houtput).symm, hshortest.symm, hlongest.symm, (Option.some.inj hfirst).symm,
    (Option.some.inj hfirst').symm⟩

end Artifact

end Shorthand
