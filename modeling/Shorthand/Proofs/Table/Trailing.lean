import Shorthand.Proofs.Table.Faults

/-!
# Words and bytes behind the end

A link may lead anywhere, so nothing in a table says how far a reader goes in it. Still, words behind a
table and bytes behind its pool change nothing, unless the outcome is that the table or the pool has
ended too early. In that case they do: with enough of them it is no longer true that it has.

## Main statements

- `Reader.exists_sound_move`: a table that cannot be read is left in a move of a sound visit.
- `Reader.decode_append_eq_iff`: which outcomes stay what they are.
-/

namespace Shorthand.Reader

variable {r : Reader} {e : ReadError}

/-- A reader with more words behind its table and more bytes behind its pool. -/
def append (r : Reader) (words : Array UInt16) (bytes : Array UInt8) : Reader where
  alphabet := r.alphabet
  table := r.table ++ words
  pool := r.pool ++ bytes

theorem extends_append (r : Reader) (words : Array UInt16) (bytes : Array UInt8) :
    r.Extends (r.append words bytes) where
  alphabet := rfl
  table := by simp [append]
  pool := by simp [append]

/-- The outcomes that do not depend on where the table and the pool end. -/
inductive Settled : Except ReadError (List StoredMatch) → Prop where
  | read (found : List StoredMatch) : Settled (.ok found)
  | emptyEntry (offset : Nat) : Settled (.error (.emptyEntry offset))
  | backwardLink (offset target : Nat) : Settled (.error (.backwardLink offset target))
  | unknownCode (code : Code) (offset : Nat) : Settled (.error (.unknownCode code offset))

/-- A reader that fails does so in the move of a visit that has read what its stage says. -/
theorem exists_sound_move (h : r.decode = .error e) : ∃ v, Visit.Sound r v ∧ v.move r = .error e := by
  obtain ⟨n, hn⟩ := exists_after_eq_ended r
  rw [h] at hn
  obtain ⟨m, v, outer, before, hbefore, hmove⟩ := exists_move_eq_error hn
  exact ⟨v, sound_of_after hbefore v (List.mem_cons_self ..), hmove⟩

/-- With enough words behind it, a table does not end at a given word. -/
theorem exists_decode_append_ne_unexpectedEnd (r : Reader) (position : Nat) :
    ∃ words bytes, (r.append words bytes).decode ≠ .error (.unexpectedEnd position) := by
  refine ⟨.replicate (position + 1) 0, #[], fun h => ?_⟩
  obtain ⟨v, hsound, hmove⟩ := exists_sound_move h
  have hsize : (r.append (.replicate (position + 1) 0) #[]).table.size ≤ position :=
    trueOf_of_move hsound hmove
  simp only [append, Array.size_append, Array.size_replicate] at hsize
  omega

/-- With enough bytes behind it, a pool has all outputs that an entry can ask for. -/
theorem exists_decode_append_ne_outputOutOfRange (r : Reader) (offset : Nat) :
    ∃ words bytes, (r.append words bytes).decode ≠ .error (.outputOutOfRange offset) := by
  refine ⟨#[], .replicate (UInt16.size + 128) 0, fun h => ?_⟩
  obtain ⟨v, hsound, hmove⟩ := exists_sound_move h
  obtain ⟨word, first, -, -, -, hsize⟩ := trueOf_of_move hsound hmove
  have hfirst := first.toNat_lt_size
  have hlength := Nat.mod_lt word.toNat (by decide : 0 < 128)
  simp only [append, Array.size_append, Array.size_replicate] at hsize
  omega

/-- The outcome for a table that is not empty stays the same, whatever is put behind the table and behind
the pool, just if it is not that one of them has ended too early. -/
theorem decode_append_eq_iff (hne : 0 < r.table.size) :
    (∀ words bytes, (r.append words bytes).decode = r.decode) ↔ Settled r.decode := by
  constructor
  · intro hsame
    cases hdecode : r.decode with
    | ok found => exact .read found
    | error e =>
      simp only [hdecode] at hsame
      cases e with
      | unexpectedEnd position =>
        obtain ⟨words, bytes, hends⟩ := exists_decode_append_ne_unexpectedEnd r position
        exact absurd (hsame words bytes) hends
      | outputOutOfRange offset =>
        obtain ⟨words, bytes, hends⟩ := exists_decode_append_ne_outputOutOfRange r offset
        exact absurd (hsame words bytes) hends
      | emptyEntry offset => exact .emptyEntry offset
      | backwardLink offset target => exact .backwardLink offset target
      | unknownCode code offset => exact .unknownCode code offset
  · intro hsettled words bytes
    have hempty : r.table.isEmpty = false := by simpa using Nat.ne_of_gt hne
    have hcontinues := (r.extends_append words bytes).decode hempty
    generalize r.decode = outcome at hsettled hcontinues
    generalize (r.append words bytes).decode = outcome' at hcontinues
    -- the longer reader goes on only where the shorter one has come to an end
    cases hcontinues with
    | same => rfl
    | tableEnd => cases hsettled
    | poolEnd => cases hsettled

/-- The second link of this table leads to its last entry. The words behind it look like an entry of
their own. -/
theorem decode_append_eq_iff_two_branches :
    ∃ (r : Reader) (found : List StoredMatch),
      r.table = #[0x4004, 5, 0x0005, 7, 0, 0x8001, 0, 0x8001, 0] ∧ r.pool = #[120] ∧
      0 < r.table.size ∧ r.decode = .ok found ∧ found.map (·.context) = ["a", "b"] ∧
      (r.append #[0x4000, 9] #[121]).decode = .ok found := by
  obtain ⟨r, found, htable, hpool, hend, hcontexts⟩ : ∃ (r : Reader) (found : List StoredMatch),
      r.table = #[0x4004, 5, 0x0005, 7, 0, 0x8001, 0, 0x8001, 0] ∧ r.pool = #[120] ∧
      r.after 12 = .ended (.ok found) ∧ found.map (·.context) = ["a", "b"] :=
    ⟨⟨⟨['★'], ['☆'], ' ', by decide, by decide⟩, _, _⟩, _, rfl, rfl, rfl, rfl⟩
  have hdecode := (eq_decode_of_after hend).symm
  have hne : 0 < r.table.size := by rw [htable]; decide
  refine ⟨r, found, htable, hpool, hne, hdecode, hcontexts, ?_⟩
  rw [(decode_append_eq_iff hne).mpr (hdecode ▸ .read found), hdecode]

end Shorthand.Reader
