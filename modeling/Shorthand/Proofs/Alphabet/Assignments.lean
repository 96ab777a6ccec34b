import Shorthand.Proofs.Alphabet
import Shorthand.Proofs.Table.Word
import Mathlib.Data.List.Induction
import Mathlib.Data.List.Nodup

/-!
# Codes by assignment

The ranks of the roles come from an order of assignments: first the keys of punctuation and digits get
their numbers, then the magic characters, the word break and the letters, and a later assignment to
a character takes the place of an earlier one. `Alphabet.assignments` lists them, and
`Alphabet.key?_eq_lookup` says that the number of a character is what was assigned to it last.

The way back is made of the pairs of a character and its code, in whatever order these are listed.
No code is listed twice, so the order does not matter (`Alphabet.lookup_swap_eq_char?`).

## Main statements

- `Alphabet.key?_eq_lookup`: a character has the number that was assigned to it last.
- `Alphabet.lookup_swap_eq_char?`: a code leads to the same character in every list of the pairs.
- `Alphabet.ofStrings_unambiguous`: the codes of every alphabet are unambiguous.
-/

namespace Shorthand.Alphabet

/-! ## Assignments -/

/-- The assignments of a run, one for each key. -/
def KeyRun.assignments (run : KeyRun) : List (Char × Nat) :=
  run.chars.zipIdx run.first

/-- The keys of the letters. -/
def letters : KeyRun := ⟨firstLetter, "abcdefghijklmnopqrstuvwxyz".toList⟩

/-- All assignments of an alphabet in their order. -/
def assignments (a : Alphabet) : List (Char × Nat) :=
  punctuation.flatMap KeyRun.assignments ++ KeyRun.assignments ⟨firstMagic, a.magicChars⟩ ++
    [(a.wordbreak, wordbreakKey)] ++ letters.assignments

variable {a : Alphabet} {c : Char} {k : Nat} {code : Code}

theorem KeyRun.mem_assignments_iff {run : KeyRun} :
    (c, k) ∈ run.assignments ↔ run.char? k = some c := by
  rw [assignments, List.mk_mem_zipIdx_iff_le_and_getElem?_sub, char?]
  by_cases hle : run.first ≤ k <;> simp [hle]

theorem KeyRun.exists_mem_assignments {run : KeyRun} (h : c ∈ run.chars) :
    ∃ k, (c, k) ∈ run.assignments := by
  obtain ⟨i, hi⟩ := List.mem_iff_getElem?.mp h
  refine ⟨run.first + i, ?_⟩
  rw [mem_assignments_iff, char?, if_pos (Nat.le_add_right ..), Nat.add_sub_cancel_left, hi]

/-! ## The last assignment -/

/-- Among assignments to different characters, the last one to a character is the only one. -/
theorem lookup_reverse_eq_some_iff {l : List (Char × Nat)} (hl : (l.map (·.1)).Nodup) :
    l.reverse.lookup c = some k ↔ (c, k) ∈ l := by
  constructor
  · intro h
    obtain ⟨before, after, heq, -⟩ := List.lookup_eq_some_iff.mp h
    rw [← List.mem_reverse, heq]
    exact List.mem_append_right _ (List.mem_cons_self ..)
  · intro h
    obtain ⟨before, after, rfl⟩ := List.append_of_mem h
    rw [List.map_append, List.map_cons, List.nodup_append] at hl
    obtain ⟨-, hafter, -⟩ := hl
    rw [List.lookup_eq_some_iff]
    refine ⟨after.reverse, before.reverse, by simp, ?_⟩
    intro p hp
    have hmem : p.1 ∈ after.map (·.1) := List.mem_map_of_mem (List.mem_reverse.mp hp)
    rw [bne_iff_ne]
    rintro rfl
    exact (List.nodup_cons.mp hafter).1 hmem

theorem lookup_reverse_eq_none {l : List (Char × Nat)} (h : ∀ k, (c, k) ∉ l) :
    l.reverse.lookup c = none := by
  rw [List.lookup_eq_none_iff]
  intro p hp
  rw [bne_iff_ne]
  rintro rfl
  exact h p.2 (List.mem_reverse.mp hp)

theorem lastIdxOf?_concat (l : List Char) (d : Char) :
    lastIdxOf? c (l ++ [d]) = if d = c then some l.length else lastIdxOf? c l := by
  unfold lastIdxOf?
  rw [List.reverse_append, List.reverse_singleton, List.singleton_append, List.idxOf?_cons]
  by_cases hd : d = c
  · simp [hd]
  · cases l.reverse.idxOf? c with
    | none => simp [hd]
    | some j => simp [hd, Nat.sub_sub, Nat.add_comm]

/-- The last assignment of a run to a character is at the last position of the character. -/
theorem KeyRun.lookup_assignments (first : Nat) (l : List Char) :
    (KeyRun.assignments ⟨first, l⟩).reverse.lookup c = (lastIdxOf? c l).map (first + ·) := by
  unfold assignments
  induction l using List.reverseRecOn with
  | nil => simp [lastIdxOf?]
  | append_singleton l d ih =>
    rw [List.zipIdx_append, List.reverse_append, List.zipIdx_singleton, List.reverse_singleton,
      List.singleton_append, List.lookup_cons, ih, lastIdxOf?_concat]
    by_cases hd : d = c
    · simp [hd]
    · have hne : (c == d) = false := beq_eq_false_iff_ne.mpr (Ne.symm hd)
      simp [hd, hne]

theorem letters_eq :
    letters = ⟨firstLetter, (List.range 26).map fun i => Char.ofNat ('a'.toNat + i)⟩ :=
  congrArg (KeyRun.mk firstLetter) String.toList_ofList

theorem isLetter_of_mem_letters :
    ∀ p ∈ letters.assignments, isLetter p.1 ∧ p.2 = firstLetter + (p.1.toNat - 'a'.toNat) := by
  rw [letters_eq]
  decide

theorem mem_letters_of_isLetter (h : isLetter c) : c ∈ letters.chars := by
  have hbounds : 97 ≤ c.toNat ∧ c.toNat ≤ 122 := by
    simpa [isLetter, Char.le_def, UInt32.le_iff_toNat_le] using h
  rw [letters_eq, List.mem_map]
  refine ⟨c.toNat - 97, List.mem_range.mpr (by omega), ?_⟩
  show Char.ofNat (97 + (c.toNat - 97)) = c
  rw [Nat.add_sub_cancel' hbounds.1, Char.ofNat_toNat]

theorem nodup_letters : (letters.assignments.map (·.1)).Nodup := by
  -- no two of these characters have one number
  refine List.Nodup.of_map Char.toNat ?_
  rw [letters_eq]
  decide

theorem lookup_letters :
    letters.assignments.reverse.lookup c =
      if isLetter c then some (firstLetter + (c.toNat - 'a'.toNat)) else none := by
  split
  next hc =>
    obtain ⟨k, hk⟩ := KeyRun.exists_mem_assignments (mem_letters_of_isLetter hc)
    rw [lookup_reverse_eq_some_iff nodup_letters, ← (isLetter_of_mem_letters _ hk).2]
    exact hk
  next hc =>
    apply lookup_reverse_eq_none
    intro k hk
    exact hc (isLetter_of_mem_letters _ hk).1

theorem nodup_punctuation : ((punctuation.flatMap KeyRun.assignments).map (·.1)).Nodup := by
  refine List.Nodup.of_map Char.toNat ?_
  rw [punctuation_eq]
  decide

theorem lookup_punctuation :
    (punctuation.flatMap KeyRun.assignments).reverse.lookup c =
      punctuation.findSome? (·.key? c) := by
  cases h : punctuation.findSome? (·.key? c) with
  | some k =>
    obtain ⟨run, hrun, hkey⟩ := List.exists_of_findSome?_eq_some h
    rw [lookup_reverse_eq_some_iff nodup_punctuation]
    apply List.mem_flatMap.mpr
    exact ⟨run, hrun, KeyRun.mem_assignments_iff.mpr (KeyRun.char?_of_key? hkey)⟩
  | none =>
    rw [List.findSome?_eq_none_iff] at h
    apply lookup_reverse_eq_none
    intro k hk
    obtain ⟨run, hrun, hmem⟩ := List.mem_flatMap.mp hk
    -- a run with the character would have a key for it
    have hnot : c ∉ run.chars := by
      simpa [KeyRun.key?] using h run hrun
    exact hnot (List.fst_mem_of_mem_zipIdx hmem)

/-- The number of a character is what was assigned to it last. -/
theorem key?_eq_lookup (a : Alphabet) (c : Char) : a.key? c = a.assignments.reverse.lookup c := by
  simp only [assignments, List.reverse_append, List.lookup_append, lookup_letters,
    KeyRun.lookup_assignments, lookup_punctuation]
  unfold key?
  by_cases hletter : isLetter c
  · simp [hletter]
  · rw [if_neg hletter, if_neg hletter, List.reverse_singleton, List.lookup_cons]
    by_cases hbreak : c = a.wordbreak
    · simp [hbreak]
    · have hne : (c == a.wordbreak) = false := beq_eq_false_iff_ne.mpr hbreak
      cases lastIdxOf? c a.magicChars <;> simp [hbreak, hne]

/-! ## The way back -/

/-- A code leads to its character, in whatever order the pairs of the two are listed. -/
theorem lookup_swap_eq_char? {entries : List (Char × Code)}
    (h : ∀ c code, (c, code) ∈ entries ↔ a.code? c = some code) (code : Code) :
    (entries.map Prod.swap).reverse.lookup code = a.char? code := by
  cases hlookup : (entries.map Prod.swap).reverse.lookup code with
  | some c =>
    obtain ⟨before, after, heq, -⟩ := List.lookup_eq_some_iff.mp hlookup
    have hmem : (code, c) ∈ (entries.map Prod.swap).reverse := by
      rw [heq]
      exact List.mem_append_right _ (List.mem_cons_self ..)
    have hcode : a.code? c = some code := by
      simpa [h] using hmem
    exact (char?_eq_some_iff.mpr hcode).symm
  | none =>
    symm
    rw [Option.eq_none_iff_forall_ne_some]
    intro c hc
    -- the pair of the two would be listed, and so it would be found
    have hmem : (c, code) ∈ entries := (h c code).mpr (char?_eq_some_iff.mp hc)
    rw [List.lookup_eq_none_iff] at hlookup
    simpa using hlookup (code, c) (by simpa using hmem)

/-! ## All alphabets -/

/-- A code among those of the magic characters is that of one of them. -/
theorem code_toNat_lt_of_magic (h : a.code? c = some code) (hfirst : firstMagic ≤ code.toNat)
    (hlast : code.toNat < firstMagic + maxMagicChars) :
    code.toNat < firstMagic + a.magicChars.length := by
  have hrole := role_of_key? (code?_eq_some_iff.mp h)
  generalize code.toNat = k at hrole hfirst hlast
  cases hrole with
  | letter _ hlow hhigh =>
    unfold firstMagic firstLetter at hfirst
    omega
  | wordbreak => exact absurd hfirst (by decide)
  | magic _ i hget =>
    have hlt := (List.getElem?_eq_some_iff.mp hget).1
    exact Nat.add_lt_add_left hlt firstMagic
  | punctuation _ _ run hrun hchar =>
    -- the keys of punctuation leave these numbers out
    have hcover := KeyRun.covers_of_char? hchar
    obtain ⟨-, -, hmagic, -⟩ := bounds_punctuation run hrun
    unfold KeyRun.Covers at hcover
    omega

/-- Texts with no more magic characters and output functions than there can be give an alphabet, and its
codes are unambiguous. A character has the code that was assigned to it last, and no two characters
have one code, so the way back does not depend on an order. Codes are neither zero nor have a flag, and
those from the first magic character on are as many as there are magic characters. -/
theorem ofStrings_unambiguous {magicChars outputFuncChars : String} (wordbreak : Char)
    (hmagic : magicChars.length ≤ maxMagicChars)
    (hfuncs : outputFuncChars.length ≤ maxOutputFuncs) :
    ∃ a, ofStrings magicChars outputFuncChars (String.singleton wordbreak) = .ok a ∧
      a.magicChars = magicChars.toList ∧ a.wordbreak = wordbreak ∧
      (∀ c, a.code? c = (a.assignments.reverse.lookup c).map UInt16.ofNat) ∧
      (∀ c d code, a.code? c = some code → a.code? d = some code → c = d) ∧
      (∀ c code, a.char? code = some c ↔ a.code? c = some code) ∧
      (∀ entries : List (Char × Code), (∀ c code, (c, code) ∈ entries ↔ a.code? c = some code) →
        ∀ code, (entries.map Prod.swap).reverse.lookup code = a.char? code) ∧
      ∀ c code, a.code? c = some code →
        code ≠ 0 ∧ Table.isMatch code = false ∧ Table.hasBranchFlag code = false ∧
          (firstMagic ≤ code.toNat → code.toNat < firstMagic + maxMagicChars →
            code.toNat < firstMagic + magicChars.length) := by
  have hwordbreak : wordbreakOf (String.singleton wordbreak) = .ok wordbreak := by
    simp [wordbreakOf]
  rw [← String.length_toList] at hmagic hfuncs
  refine ⟨⟨magicChars.toList, outputFuncChars.toList, wordbreak, hmagic, hfuncs⟩, ?_, rfl, rfl,
    fun c => by rw [code?, key?_eq_lookup], fun c d code => code?_injective,
    fun c code => char?_eq_some_iff, fun entries h code => lookup_swap_eq_char? h code, ?_⟩
  · rw [ofStrings, hwordbreak]
    simp [hmagic, hfuncs]
  · intro c code h
    have hplain : Table.Plain code := ⟨code_ne_zero h, code_toNat_lt h⟩
    refine ⟨hplain.ne_zero, hplain.isMatch, hplain.hasBranchFlag, ?_⟩
    rw [← String.length_toList]
    exact code_toNat_lt_of_magic h

/-- A letter, a key of punctuation named twice and the word break are all listed as magic characters. Only
the second semicolon counts. -/
theorem ofStrings_unambiguous_shadowed :
    ∃ a, ofStrings "a;:;" "%" (String.singleton ':') = .ok a ∧
      a.code? 'a' = some 0x0004 ∧ a.code? ';' = some 0x0103 ∧ a.code? ':' = some 0x002C ∧
      ∀ c, a.code? c = some 0x0103 → c = ';' := by
  obtain ⟨a, ha, hmagic, hwordbreak, hcode, hinjective, -⟩ :=
    @ofStrings_unambiguous "a;:;" "%" ':' (by decide) (by decide)
  have hsemicolon : a.code? ';' = some 0x0103 := by
    rw [hcode, assignments, hmagic, hwordbreak, punctuation_eq, letters_eq]
    decide
  refine ⟨a, ha, ?_, hsemicolon, ?_, fun c hc => hinjective c ';' _ hc hsemicolon⟩ <;>
    rw [hcode, assignments, hmagic, hwordbreak, punctuation_eq, letters_eq] <;> decide

end Shorthand.Alphabet
