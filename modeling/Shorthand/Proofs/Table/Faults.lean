import Shorthand.Proofs.Table.Walk

/-!
# What read errors say

An error names the place at which a walk ended, and says something about the words there:
`ReadError.TrueOf`. That it is so comes from the walk one word at a time. At each of its steps, what a
visit has read already is what its stage says (`Reader.Visit.Sound`), and the move that ends the walk
looks at the last word that matters.

## Main statements

- `Reader.sound_of_move`: moves keep what the stages say.
- `Reader.trueOf_of_move`: a move fails for the reason it gives.
- `Reader.trueOf_of_decode`: so does a reader, on every table.
-/

namespace Shorthand

/-- Whether the table and the pool are as an error says. -/
def ReadError.TrueOf (r : Reader) : ReadError → Prop
  | .unexpectedEnd offset => r.table.size ≤ offset
  | .emptyEntry offset =>
    r.table[offset]? = some 0 ∨
      ∃ word, r.table[offset]? = some word ∧ Table.isMatch word ∧ Table.hasBranchFlag word ∧
        r.table[offset + 2]? = some 0
  | .backwardLink offset target =>
    (∃ word, r.table[offset]? = some word ∧ word.toNat = target) ∧ target < offset
  | .outputOutOfRange offset =>
    ∃ word first, r.table[offset]? = some word ∧ Table.isMatch word ∧
      r.table[offset + 1]? = some first ∧ r.pool.size < first.toNat + word.toNat % 128
  | .unknownCode code offset =>
    r.alphabet.char? code = none ∧
      ∃ word first, r.table[offset]? = some word ∧ Table.isMatch word ∧
        r.table[offset + 1]? = some first ∧ first.toNat + word.toNat % 128 ≤ r.pool.size

namespace Reader

variable {r : Reader} {v : Visit} {visits outer inner : List Visit} {found new : List StoredMatch}
  {offset position n : Nat} {path : List Code} {word : UInt16} {e : ReadError}

/-! ## Failing steps -/

theorem getElem?_of_wordAt (h : r.wordAt position = .ok word) : r.table[position]? = some word :=
  Array.getElem?_eq_some_iff.mpr (wordAt_eq_ok_iff.mp h)

theorem trueOf_of_wordAt (h : r.wordAt position = .error e) : e.TrueOf r := by
  unfold wordAt at h
  split at h
  next => cases h
  next hge =>
    cases h
    exact Nat.not_lt.mp hge

/-- A path has no characters because of a code on it that has none. -/
theorem char?_of_context_eq_error {code : Code} (h : r.context path = .error code) :
    r.alphabet.char? code = none := by
  obtain ⟨_, code', _, -, -, hcode⟩ := mapM_eq_error_iff.mp h
  split at hcode
  next => cases hcode
  next hnone =>
    cases hcode
    exact hnone

theorem trueOf_of_storedMatch {outputOffset : UInt16} (hword : r.wordAt offset = .ok word)
    (hmatch : Table.isMatch word) (houtput : r.wordAt (offset + 1) = .ok outputOffset)
    (h : r.storedMatch offset word outputOffset path = .error e) : e.TrueOf r := by
  unfold storedMatch at h
  simp only at h
  split at h
  -- the output is there, so the context is not
  next hin =>
    split at h
    next code hcontext =>
      cases h
      exact ⟨char?_of_context_eq_error hcontext, word, outputOffset, getElem?_of_wordAt hword, hmatch,
        getElem?_of_wordAt houtput, hin⟩
    next => cases h
  next hout =>
    cases h
    exact ⟨word, outputOffset, getElem?_of_wordAt hword, hmatch, getElem?_of_wordAt houtput,
      Nat.lt_of_not_le hout⟩

/-! ## What a visit has read -/

/-- Whether the words that a visit has read are as its stage says. -/
def Visit.Sound (r : Reader) (v : Visit) : Prop :=
  match v.stage with
  | .first => v.position = v.offset
  | .output matchWord =>
    v.position = v.offset + 1 ∧ r.wordAt v.offset = .ok matchWord ∧ Table.isMatch matchWord
  | .shape =>
    v.position = v.offset + 2 ∧
      ∃ word, r.wordAt v.offset = .ok word ∧ Table.isMatch word ∧ Table.hasBranchFlag word
  | .link _ => v.offset < v.position
  | .code | .run | .passed => True

theorem sound_of_move (hsound : v.Sound r) (h : v.move r = .ok (inner, new)) :
    ∀ w ∈ inner, w.Sound r := by
  unfold Visit.Sound at hsound
  cases movesTo_of_move h with
  | matchWord hstage hword hmatch =>
    simp only [hstage] at hsound
    rw [hsound] at hword
    rw [List.forall_mem_singleton]
    exact ⟨congrArg Nat.succ hsound, hword, hmatch⟩
  | @shape word =>
    rw [List.forall_mem_singleton]
    show Visit.Sound r { v with stage := if Table.hasBranchFlag word then .code else .run }
    split <;> trivial
  | @output matchWord _ _ hstage =>
    simp only [hstage] at hsound
    obtain ⟨hposition, hword, hmatch⟩ := hsound
    split
    next hflag =>
      rw [List.forall_mem_singleton]
      exact ⟨congrArg Nat.succ hposition, matchWord, hword, hmatch, hflag⟩
    next => exact List.forall_mem_nil _
  | listCode =>
    rw [List.forall_mem_singleton]
    exact Nat.lt_succ_of_le v.offset_le
  | listEnd => exact List.forall_mem_nil _
  | link => exact List.forall_mem_cons.mpr ⟨rfl, List.forall_mem_singleton.mpr trivial⟩
  | runCode => exact List.forall_mem_singleton.mpr trivial
  | runEnd => exact List.forall_mem_cons.mpr ⟨rfl, List.forall_mem_singleton.mpr trivial⟩
  | passed => exact List.forall_mem_nil _

/-- At every step of a walk, all visits have read what their stages say. -/
theorem sound_of_after (h : r.after n = .going visits found) : ∀ v ∈ visits, v.Sound r := by
  refine forall_going (P := fun visits => ∀ v ∈ visits, v.Sound r) (List.forall_mem_nil _) ?_ ?_ h
  · exact List.forall_mem_singleton.mpr rfl
  · intro v inner outer new hmove hsound
    obtain ⟨hv, houter⟩ := List.forall_mem_cons.mp hsound
    exact List.forall_mem_append.mpr ⟨sound_of_move hv hmove, houter⟩

/-! ## Failing moves -/

theorem trueOf_of_move (hsound : v.Sound r) (h : v.move r = .error e) : e.TrueOf r := by
  unfold Visit.Sound at hsound
  unfold Visit.move at h
  split at h
  next hstage =>
    simp only [hstage] at hsound
    rcases bind_eq_error_iff.mp h with hword | ⟨word, hword, h⟩
    · exact trueOf_of_wordAt hword
    · split at h
      next => cases h
      next =>
        obtain ⟨rfl, rfl⟩ := atShape_eq_error h
        rw [hsound] at hword
        exact .inl (getElem?_of_wordAt hword)
  next matchWord hstage =>
    simp only [hstage] at hsound
    obtain ⟨hposition, hword, hmatch⟩ := hsound
    rcases bind_eq_error_iff.mp h with houtput | ⟨outputOffset, houtput, h⟩
    · exact trueOf_of_wordAt houtput
    · rw [hposition] at houtput
      rcases bind_eq_error_iff.mp h with hstored | ⟨_, -, h⟩
      · exact trueOf_of_storedMatch hword hmatch houtput hstored
      · cases h
  next hstage =>
    simp only [hstage] at hsound
    obtain ⟨hposition, matchWord, hmatchWord, hmatch, hflag⟩ := hsound
    rcases bind_eq_error_iff.mp h with hword | ⟨word, hword, h⟩
    · exact trueOf_of_wordAt hword
    · obtain ⟨rfl, rfl⟩ := atShape_eq_error h
      rw [hposition] at hword
      exact .inr ⟨matchWord, getElem?_of_wordAt hmatchWord, hmatch, hflag, getElem?_of_wordAt hword⟩
  next =>
    rcases bind_eq_error_iff.mp h with hword | ⟨word, -, h⟩
    · exact trueOf_of_wordAt hword
    · split at h <;> cases h
  next hstage =>
    simp only [hstage] at hsound
    rcases bind_eq_error_iff.mp h with htarget | ⟨target, htarget, h⟩
    · exact trueOf_of_wordAt htarget
    · split at h
      next hback =>
        cases h
        exact ⟨⟨target, getElem?_of_wordAt htarget, rfl⟩, Nat.lt_of_le_of_lt hback hsound⟩
      next => cases h
  next =>
    rcases bind_eq_error_iff.mp h with hword | ⟨word, -, h⟩
    · exact trueOf_of_wordAt hword
    · split at h <;> cases h
  next => cases h

/-- A walk that ends with an error does so in a move of the innermost visit. -/
theorem exists_move_eq_error (h : r.after n = .ended (.error e)) :
    ∃ m v outer before, r.after m = .going (v :: outer) before ∧ v.move r = .error e := by
  induction n with
  | zero => cases h
  | succ n ih =>
    have hstep := stepsTo_step r (r.after n)
    rw [← after_succ, h] at hstep
    generalize hbefore : r.after n = w at hstep
    cases hstep with
    | fail outer before hmove => exact ⟨n, _, outer, before, hbefore, hmove⟩
    | rest => exact ih hbefore

/-- If a table cannot be read, the table and the pool are as the error says. -/
theorem trueOf_of_decode (h : r.decode = .error e) : e.TrueOf r := by
  obtain ⟨n, hn⟩ := exists_after_eq_ended r
  rw [h] at hn
  obtain ⟨m, v, outer, before, hbefore, hmove⟩ := exists_move_eq_error hn
  exact trueOf_of_move (sound_of_after hbefore v (List.mem_cons_self ..)) hmove

/-- Behind a run of two codes, this table has a match whose way has a code that no key has. -/
theorem trueOf_of_decode_unknown_code :
    ∃ r : Reader, r.table = #[0x00FF, 0x0004, 0, 0x8001, 0] ∧ r.pool = #[120] ∧
      r.decode = .error (.unknownCode 0x00FF 3) ∧ (ReadError.unknownCode 0x00FF 3).TrueOf r := by
  obtain ⟨r, htable, hpool, hend⟩ : ∃ r : Reader, r.table = #[0x00FF, 0x0004, 0, 0x8001, 0] ∧
      r.pool = #[120] ∧ r.after 7 = .ended (.error (.unknownCode 0x00FF 3)) :=
    ⟨⟨⟨['★'], ['☆'], ' ', by decide, by decide⟩, _, _⟩, rfl, rfl, rfl⟩
  have hdecode := (eq_decode_of_after hend).symm
  exact ⟨r, htable, hpool, hdecode, trueOf_of_decode hdecode⟩

end Reader

end Shorthand
