import Shorthand.Matcher
import Shorthand.Proofs.Outcome

/-!
# Codes are unambiguous

An alphabet gives no code to two characters, whatever roles its characters were named in. Each role has
a range of numbers of its own, and within a range a number leads back to its character:
`Alphabet.candidate?_of_key?` goes through the roles, and the rest follows from it.

Codes are not zero and stay below the flags of a table, so a table can end its lists with a zero and
mark its words with the flags.

## Main statements

- `Alphabet.code?_injective`: characters with one code are equal.
- `Alphabet.char?_eq_some_iff`: looking up by code undoes looking up by character.
- `Alphabet.path_eq_error_iff`: which character keeps a context from having a path.
- `Alphabet.path_injective`: contexts with one path are equal.
-/

namespace Shorthand.Alphabet

/-! ## Positions and runs -/

theorem getElem?_of_lastIdxOf? {c : Char} {l : List Char} {i : Nat}
    (h : lastIdxOf? c l = some i) : l[i]? = some c := by
  obtain ⟨j, hj, rfl⟩ := Option.map_eq_some_iff.mp h
  obtain ⟨hlt, hget, -⟩ := List.idxOf?_eq_some_iff.mp hj
  have hlen : j < l.length := by simpa using hlt
  -- the last position is the first one of the reversed list
  rw [← List.getElem?_reverse hlen, List.getElem?_eq_getElem hlt, hget]

namespace KeyRun

/-- Whether a number is the code of one of the keys of a run. -/
def Covers (run : KeyRun) (k : Nat) : Prop :=
  run.first ≤ k ∧ k < run.first + run.chars.length

/-- A run has the characters of the numbers it covers and no others. -/
theorem covers_of_char? {run : KeyRun} {k : Nat} {c : Char} (h : run.char? k = some c) :
    run.Covers k := by
  unfold char? at h
  split at h
  · have hlt := (List.getElem?_eq_some_iff.mp h).1
    exact ⟨by assumption, by omega⟩
  · cases h

theorem char?_of_key? {run : KeyRun} {c : Char} {k : Nat} (h : run.key? c = some k) :
    run.char? k = some c := by
  obtain ⟨j, hj, rfl⟩ := Option.map_eq_some_iff.mp h
  obtain ⟨hlt, hget, -⟩ := List.idxOf?_eq_some_iff.mp hj
  simp [char?, hlt, hget]

/-- Two runs that cover no number in common. -/
def Apart (r s : KeyRun) : Prop :=
  r.first + r.chars.length ≤ s.first ∨ s.first + s.chars.length ≤ r.first

instance (r s : KeyRun) : Decidable (r.Apart s) :=
  inferInstanceAs (Decidable (_ ∨ _))

/-- Among runs that are apart, the one that has a number is the only one. -/
theorem findSome?_char? {runs : List KeyRun} (hruns : runs.Pairwise Apart) {run : KeyRun}
    (hrun : run ∈ runs) {k : Nat} {c : Char} (hc : run.char? k = some c) :
    runs.findSome? (·.char? k) = some c := by
  induction runs with
  | nil => cases hrun
  | cons r runs ih =>
    rw [List.pairwise_cons] at hruns
    rcases List.mem_cons.mp hrun with rfl | hmem
    · simp [hc]
    · cases hr : r.char? k with
      | none => simpa [hr] using ih hruns.2 hmem
      | some d =>
        -- both runs would cover the number
        have hr := covers_of_char? hr
        have hc := covers_of_char? hc
        have hapart := hruns.1 run hmem
        unfold Covers at hr hc
        unfold Apart at hapart
        omega

end KeyRun

/-- The keys of digits and punctuation, character by character. -/
theorem punctuation_eq : punctuation =
    [⟨0x33, [';', '\x27', '\x60', ',', '.', '/']⟩, ⟨0x233, [':', '\x22', '~', '<', '>', '?']⟩,
      ⟨0x2D, ['-', '=', '[', ']', '\\']⟩, ⟨0x22D, ['_', '+', '\x7b', '\x7d', '|']⟩,
      ⟨0x1E, ['1', '2', '3', '4', '5', '6', '7', '8', '9', '0']⟩,
      ⟨0x21E, ['!', '@', '#', '$', '%', '^', '&', '*', '(', ')']⟩] := by
  simp only [punctuation, List.cons.injEq, KeyRun.mk.injEq, true_and, and_true]
  refine ⟨?_, ?_, ?_, ?_, ?_, ?_⟩ <;> exact String.toList_ofList

/-- They are apart. -/
theorem pairwise_punctuation : punctuation.Pairwise KeyRun.Apart := by
  rw [punctuation_eq]
  decide

/-- Their numbers. No other role has any of them. -/
theorem bounds_punctuation : ∀ run ∈ punctuation, firstLetter + 26 ≤ run.first ∧
    ¬ run.Covers wordbreakKey ∧ (run.first + run.chars.length ≤ firstMagic ∨
      firstMagic + maxMagicChars ≤ run.first) ∧ run.first + run.chars.length ≤ 0x4000 := by
  rw [punctuation_eq]
  unfold KeyRun.Covers
  decide

/-! ## Numbers and characters -/

variable {a : Alphabet} {c d : Char} {k : Nat} {code : Code}

/-- The roles a character can have its number by. -/
inductive Role (a : Alphabet) : Char → Nat → Prop
  | letter (c : Char) (low : 97 ≤ c.toNat) (high : c.toNat ≤ 122) :
    Role a c (firstLetter + (c.toNat - 97))
  | wordbreak : Role a a.wordbreak wordbreakKey
  | magic (c : Char) (i : Nat) (listed : a.magicChars[i]? = some c) : Role a c (firstMagic + i)
  | punctuation (c : Char) (k : Nat) (run : KeyRun) (mem : run ∈ Alphabet.punctuation)
    (char : run.char? k = some c) : Role a c k

theorem role_of_key? (h : a.key? c = some k) : a.Role c k := by
  unfold key? at h
  split at h
  next hc =>
    have hlow : 97 ≤ c.toNat ∧ c.toNat ≤ 122 := by
      simpa [isLetter, Char.le_def, UInt32.le_iff_toNat_le] using hc
    cases h
    exact .letter c hlow.1 hlow.2
  next =>
    split at h
    next hc =>
      cases h
      exact hc ▸ .wordbreak
    next =>
      split at h
      next i hi =>
        cases h
        exact .magic c i (getElem?_of_lastIdxOf? hi)
      next =>
        obtain ⟨run, hrun, hkey⟩ := List.exists_of_findSome?_eq_some h
        exact .punctuation c k run hrun (KeyRun.char?_of_key? hkey)

/-- The number of a character leads back to it, since the roles have no number in common. -/
theorem candidate?_of_key? (h : a.key? c = some k) : a.candidate? k = some c := by
  cases role_of_key? h with
  | letter _ hlow hhigh =>
    have hback : 'a'.toNat + (firstLetter + (c.toNat - 97) - firstLetter) = c.toNat := by
      have : 'a'.toNat = 97 := rfl
      omega
    rw [candidate?, if_pos (by simp; omega), hback, Char.ofNat_toNat]
  | wordbreak => simp [candidate?, firstLetter, wordbreakKey]
  | magic _ i hget =>
    have hlt := (List.getElem?_eq_some_iff.mp hget).1
    -- there are not so many magic characters that they reach the keys above them
    have hmax := a.length_magicChars_le
    have hletters : ¬ firstMagic + i < firstLetter + 26 := by unfold firstMagic firstLetter; omega
    have hbreak : firstMagic + i ≠ wordbreakKey := by unfold firstMagic wordbreakKey; omega
    have hmagic : firstMagic + i < firstMagic + maxMagicChars := by unfold maxMagicChars; omega
    rw [candidate?, if_neg (by simp [hletters]), if_neg hbreak, if_pos (by simp [hmagic]),
      Nat.add_sub_cancel_left, hget]
  | punctuation _ _ run hrun hchar =>
    -- the runs avoid the numbers of all other roles
    have hcover := KeyRun.covers_of_char? hchar
    obtain ⟨hletters, hbreak, hmagic, -⟩ := bounds_punctuation run hrun
    have hne : k ≠ wordbreakKey := fun heq => hbreak (heq ▸ hcover)
    unfold KeyRun.Covers at hcover
    rw [candidate?, if_neg (by simp; omega), if_neg hne, if_neg (by simp; omega)]
    exact KeyRun.findSome?_char? pairwise_punctuation hrun hchar

/-- The number of a character is not zero and stays below the flags of a table. -/
theorem key?_bounds (h : a.key? c = some k) : 0 < k ∧ k < 0x4000 := by
  cases role_of_key? h with
  | letter _ hlow hhigh =>
    unfold firstLetter
    omega
  | wordbreak => decide
  | magic _ i hget =>
    have hlt := (List.getElem?_eq_some_iff.mp hget).1
    have hmax := a.length_magicChars_le
    unfold firstMagic
    omega
  | punctuation _ _ run hrun hchar =>
    have hcover := KeyRun.covers_of_char? hchar
    obtain ⟨hletters, -, -, hmax⟩ := bounds_punctuation run hrun
    unfold KeyRun.Covers at hcover
    unfold firstLetter at hletters
    omega

theorem code?_eq_some_iff : a.code? c = some code ↔ a.key? c = some code.toNat := by
  unfold code?
  constructor
  · intro h
    obtain ⟨k, hk, rfl⟩ := Option.map_eq_some_iff.mp h
    -- numbers are small enough for words, so nothing is cut off
    have hlt := (key?_bounds hk).2
    rw [UInt16.toNat_ofNat_of_lt' (by unfold UInt16.size; omega)]
    exact hk
  · intro h
    simp [h]

/-- Looking up by code undoes looking up by character. -/
theorem char?_eq_some_iff : a.char? code = some c ↔ a.code? c = some code := by
  unfold char?
  -- `char?` tries the one candidate and keeps it if it has the code
  rw [Option.filter_eq_some_iff]
  constructor
  · rintro ⟨-, h⟩
    simpa using h
  · intro h
    exact ⟨candidate?_of_key? (code?_eq_some_iff.mp h), by simpa using h⟩

theorem code?_injective (hc : a.code? c = some code) (hd : a.code? d = some code) : c = d := by
  rw [← char?_eq_some_iff] at hc hd
  exact Option.some.inj (hc.symm.trans hd)

theorem code_ne_zero (h : a.code? c = some code) : code ≠ 0 := by
  have hpos := (key?_bounds (code?_eq_some_iff.mp h)).1
  rintro rfl
  exact absurd hpos (by decide)

theorem code_toNat_lt (h : a.code? c = some code) : code.toNat < 0x4000 :=
  (key?_bounds (code?_eq_some_iff.mp h)).2

/-! ## Paths -/

/-- The codes of a context from its last character backwards, without the characters that have none. -/
def codes (a : Alphabet) (context : List Char) : List Code :=
  context.reverse.filterMap a.code?

variable {context context' : List Char} {path : List Code}

/-- A path has the codes of a context backwards, one by one. -/
theorem path_eq_ok_iff_forall₂ :
    a.path context = .ok path ↔
      List.Forall₂ (fun c code => a.code? c = some code) context.reverse path := by
  rw [Alphabet.path, mapM_eq_ok_iff]
  constructor
  · refine List.Forall₂.imp fun c code h => ?_
    split at h
    next hc => rw [hc, Except.ok.inj h]
    next => cases h
  · refine List.Forall₂.imp fun c code h => ?_
    rw [h]

/-- A context has a path if the alphabet has all of its characters, and this is the path. -/
theorem path_eq_ok_iff :
    a.path context = .ok path ↔ (∀ c ∈ context, a.contains c) ∧ path = a.codes context := by
  rw [path_eq_ok_iff_forall₂]
  have hmem (c : Char) : c ∈ context ↔ c ∈ context.reverse := List.mem_reverse.symm
  unfold codes contains
  simp only [hmem]
  -- both sides speak of the reversed context only, so the induction may be on any list
  generalize context.reverse = keys
  induction keys generalizing path with
  | nil => simp
  | cons c keys ih =>
    rw [List.forall₂_cons_left_iff]
    cases hc : a.code? c with
    | none => simp [hc]
    | some code => simp [hc, ih]

/-- A context has no path if a character has no code, and the last such character is what is named. -/
theorem path_eq_error_iff :
    a.path context = .error c ↔
      ∃ before after, context = before ++ c :: after ∧ ¬ a.contains c ∧ ∀ d ∈ after, a.contains d := by
  rw [Alphabet.path, mapM_eq_error_iff]
  unfold contains
  constructor
  · rintro ⟨after, d, before, heq, hafter, hd⟩
    split at hd
    next => cases hd
    next hnone =>
      cases hd
      refine ⟨before.reverse, after.reverse, ?_, by simp [hnone], fun d hd => ?_⟩
      · rw [← context.reverse_reverse, heq]
        simp
      · obtain ⟨code, hcode⟩ := hafter d (List.mem_reverse.mp hd)
        split at hcode
        next hsome => simp [hsome]
        next => cases hcode
  · rintro ⟨before, after, rfl, hc, hafter⟩
    refine ⟨after.reverse, c, before.reverse, by simp, fun d hd => ?_, ?_⟩
    · obtain ⟨code, hcode⟩ := Option.isSome_iff_exists.mp (hafter d (List.mem_reverse.mp hd))
      exact ⟨code, by rw [hcode]⟩
    · rw [Option.not_isSome_iff_eq_none.mp hc]

theorem path_injective (h : a.path context = .ok path) (h' : a.path context' = .ok path) :
    context = context' := by
  rw [path_eq_ok_iff_forall₂] at h h'
  -- character by character, a code decides what it is the code of
  have hunique : Relator.LeftUnique fun c code => a.code? c = some code :=
    fun _ _ _ hc hd => code?_injective hc hd
  exact List.reverse_injective (List.left_unique_forall₂' hunique h h')

theorem filterMap_char?_of_path (h : a.path context = .ok path) :
    path.reverse.filterMap a.char? = context := by
  rw [path_eq_ok_iff_forall₂] at h
  rw [← context.reverse_reverse, List.filterMap_reverse, List.reverse_inj]
  generalize context.reverse = keys at h
  induction h with
  | nil => rfl
  | cons hc _ ih => rw [List.filterMap_cons_some (char?_eq_some_iff.mpr hc), ih]

end Shorthand.Alphabet
