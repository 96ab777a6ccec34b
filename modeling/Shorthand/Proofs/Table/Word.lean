import Shorthand.Table.Basic

/-!
# Words of a table

A match word holds its fields: `MatchWord.ofWord_of_pack?` reads back what `MatchWord.pack?` has packed.
Codes stay below both flags, so a reader can tell match words, the first word of a list of branches
and all other codes from one another. A word keeps every offset into a table.
-/

namespace Shorthand

/-! ## Match words -/

namespace MatchWord

variable {m : MatchWord} {word : UInt16}

theorem toNat_lt (h : m.Fits) : m.toNat < 0x10000 := by
  obtain ⟨hfunc, hback, hlen⟩ := h
  unfold toNat Table.matchFlag Table.branchFlag
  split <;> omega

/-- Fields are packed if they fit. -/
theorem pack?_eq_some_iff : m.pack? = some word ↔ m.Fits ∧ word.toNat = m.toNat := by
  unfold pack?
  constructor
  · intro h
    split at h
    next hfits =>
      obtain rfl := Option.some.inj h
      exact ⟨hfits, UInt16.toNat_ofNat_of_lt' (toNat_lt hfits)⟩
    next => cases h
  · rintro ⟨hfits, hword⟩
    rw [if_pos hfits, ← hword, UInt16.ofNat_toNat]

/-- Packed fields are read back. -/
theorem ofWord_of_pack? (h : m.pack? = some word) : ofWord word = m := by
  obtain ⟨⟨hfunc, hback, hlen⟩, hword⟩ := pack?_eq_some_iff.mp h
  obtain ⟨hasMore, outputFunc, backspaces, length⟩ := m
  unfold toNat Table.matchFlag Table.branchFlag at hword
  unfold ofWord Table.hasBranchFlag Table.branchFlag
  -- the fields take up bits that are apart, so each is found by division
  cases hasMore <;> simp_all <;> omega

theorem hasBranchFlag_of_pack? (h : m.pack? = some word) : Table.hasBranchFlag word = m.hasMore :=
  congrArg hasMore (ofWord_of_pack? h)

theorem isMatch_of_pack? (h : m.pack? = some word) : Table.isMatch word := by
  obtain ⟨-, hword⟩ := pack?_eq_some_iff.mp h
  unfold toNat at hword
  unfold Table.isMatch
  rw [decide_eq_true_eq]
  omega

end MatchWord

/-! ## Codes -/

namespace Table

variable {code : Code}

/-- Whether a code can stand in a table: it ends no list and has no flag. -/
structure Plain (code : Code) : Prop where
  /-- Zeros end lists. -/
  ne_zero : code ≠ 0
  /-- The flags are above all codes. -/
  lt : code.toNat < branchFlag

theorem Plain.isMatch (h : Plain code) : isMatch code = false := by
  have hlt := h.lt
  unfold branchFlag at hlt
  unfold Table.isMatch matchFlag
  rw [decide_eq_false_iff_not]
  omega

theorem Plain.hasBranchFlag (h : Plain code) : hasBranchFlag code = false := by
  have hlt := h.lt
  unfold branchFlag at hlt
  unfold Table.hasBranchFlag branchFlag
  rw [beq_eq_false_iff_ne]
  omega

theorem Plain.withoutBranchFlag (h : Plain code) : withoutBranchFlag code = code := by
  simp [Table.withoutBranchFlag, h.hasBranchFlag]

theorem Plain.toNat_withBranchFlag (h : Plain code) :
    (withBranchFlag code).toNat = code.toNat + branchFlag := by
  have hlt := h.lt
  rw [withBranchFlag, h.hasBranchFlag]
  exact UInt16.toNat_ofNat_of_lt' (by unfold branchFlag at hlt ⊢; unfold UInt16.size; omega)

theorem Plain.isMatch_withBranchFlag (h : Plain code) :
    Table.isMatch (withBranchFlag code) = false := by
  have hlt := h.lt
  have hword := h.toNat_withBranchFlag
  unfold branchFlag at hlt hword
  unfold Table.isMatch matchFlag
  rw [decide_eq_false_iff_not]
  omega

theorem Plain.hasBranchFlag_withBranchFlag (h : Plain code) :
    Table.hasBranchFlag (withBranchFlag code) := by
  have hlt := h.lt
  have hword := h.toNat_withBranchFlag
  unfold branchFlag at hlt hword
  unfold Table.hasBranchFlag branchFlag
  rw [beq_iff_eq]
  omega

theorem Plain.withoutBranchFlag_withBranchFlag (h : Plain code) :
    Table.withoutBranchFlag (withBranchFlag code) = code := by
  rw [Table.withoutBranchFlag, if_pos h.hasBranchFlag_withBranchFlag, h.toNat_withBranchFlag,
    Nat.add_sub_cancel, UInt16.ofNat_toNat]

theorem Plain.withBranchFlag_ne_zero (h : Plain code) : withBranchFlag code ≠ 0 := by
  intro hzero
  have hword := h.toNat_withBranchFlag
  rw [hzero] at hword
  unfold branchFlag at hword
  have : (0 : UInt16).toNat = 0 := rfl
  omega

/-- A flagged word that has no code is the flag alone. -/
theorem eq_branchFlag_of_withoutBranchFlag {word : UInt16} (hflag : hasBranchFlag word)
    (hzero : withoutBranchFlag word = 0) : word = UInt16.ofNat branchFlag := by
  have hlt := word.toNat_lt
  have hcode : (word.toNat - branchFlag) % 65536 = 0 := by
    rw [withoutBranchFlag, if_pos hflag] at hzero
    simpa using congrArg UInt16.toNat hzero
  rw [hasBranchFlag, beq_iff_eq] at hflag
  unfold branchFlag at hflag hcode
  apply UInt16.toNat_inj.mp
  show word.toNat = 0x4000
  omega

/-! ## Offsets -/

/-- A word keeps an offset into a table. -/
theorem toNat_ofNat_of_le {offset : Nat} (h : offset ≤ maxSize) :
    (UInt16.ofNat offset).toNat = offset :=
  UInt16.toNat_ofNat_of_lt' (by unfold maxSize at h; unfold UInt16.size; omega)

end Table

end Shorthand
