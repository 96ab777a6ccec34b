import Shorthand.Proofs.Table.Walk
import Shorthand.Proofs.Table.Word

/-!
# Entries without matches

An entry is there for the matches at and below it. The reader refuses one that starts with a zero, but
not one that is a list without branches (`Reader.BareAt`): its first word, the branch flag alone, is not
zero, and as a code it ends the list. Below such an entry nothing is found. It is the only one of its
kind: if a table can be read and none of the visited entries is bare, each of them has a match.

## Main statements

- `Reader.bareAt_or_of_visit_eq_nil`: a visit that finds nothing leads to a bare entry.
- `Reader.visits_fruitful_iff`: all visits find something just if no bare entry is visited.
- `Reader.bare_entry_is_read`: a table that is one bare entry is read, and nothing is found.
-/

namespace Shorthand.Reader

variable {r : Reader} {w : Walk} {visits outer : List Visit} {found before : List StoredMatch} {path : List Code}
  {offset n : Nat}

/-- Whether an entry is a list without branches: the branch flag with no code. -/
def BareAt (r : Reader) (offset : Nat) : Prop :=
  r.wordAt offset = .ok (UInt16.ofNat Table.branchFlag)

/-- Nothing is found at a bare entry, and that is no error. -/
theorem visit_of_bareAt (h : r.BareAt offset) (path : List Code) : r.visit offset path = .ok [] := by
  have hmatch : Table.isMatch (UInt16.ofNat Table.branchFlag) = false := by decide
  have hne : UInt16.ofNat Table.branchFlag ≠ 0 := by decide
  have hflag : Table.hasBranchFlag (UInt16.ofNat Table.branchFlag) = true := by decide
  have hzero : Table.withoutBranchFlag (UInt16.ofNat Table.branchFlag) = 0 := by decide
  rw [BareAt] at h
  rw [visit_eq, h, ok_bind, hmatch, if_neg Bool.false_ne_true, visitShape_eq, h, ok_bind, if_neg hne,
    if_pos hflag, visitLinks_eq, h, ok_bind, if_pos hzero]

theorem bareAt_of_leads (hleads : r.Leads w (.going (.enter offset path :: outer) before))
    (h : r.BareAt offset ∨ ∃ offset' path' outer', r.BareAt offset' ∧
      r.Leads (.going (.enter offset path :: outer) before)
        (.going (.enter offset' path' :: outer') before)) :
    ∃ offset' path' outer', r.BareAt offset' ∧
      r.Leads w (.going (.enter offset' path' :: outer') before) := by
  rcases h with hbare | ⟨offset', path', outer', hbare, h⟩
  · exact ⟨offset, path, outer, hbare, hleads⟩
  · exact ⟨offset', path', outer', hbare, hleads.trans h⟩

/-- A visit that finds nothing is at a bare entry, or leads to one. -/
theorem bareAt_or_of_visit_eq_nil {offset : Nat} {path : List Code} (outer : List Visit)
    (before : List StoredMatch) (h : r.visit offset path = .ok []) :
    r.BareAt offset ∨ ∃ offset' path' outer', r.BareAt offset' ∧
      r.Leads (.going (.enter offset path :: outer) before)
        (.going (.enter offset' path' :: outer') before) := by
  rw [visit_eq] at h
  obtain ⟨word, hword, h⟩ := bind_eq_ok_iff.mp h
  have hlt := lt_of_wordAt hword
  split at h
  -- a match is found
  next =>
    obtain ⟨_, -, h⟩ := bind_eq_ok_iff.mp h
    obtain ⟨_, -, h⟩ := bind_eq_ok_iff.mp h
    split at h
    · obtain ⟨_, -, h⟩ := bind_eq_ok_iff.mp h
      cases h
    · cases h
  next hmatch =>
    have hmove := move_enter path hword (Bool.eq_false_iff.mpr hmatch)
    rw [visitShape_eq, hword, ok_bind] at h
    split at h
    next => cases h
    next hne =>
      rw [atShape_of_ne_zero hne] at hmove
      split at h
      next hflag =>
        rw [if_pos hflag] at hmove
        rw [visitLinks_eq, hword, ok_bind] at h
        split at h
        next hzero =>
          left
          rw [BareAt, hword, Table.eq_branchFlag_of_withoutBranchFlag hflag hzero]
        -- nothing is found below the first branch either
        next hcode =>
          obtain ⟨target, htarget, h⟩ := bind_eq_ok_iff.mp h
          split at h
          next => cases h
          next hforward =>
            obtain ⟨first, hfirst, h⟩ := bind_eq_ok_iff.mp h
            obtain ⟨rest, -, h⟩ := bind_eq_ok_iff.mp h
            obtain ⟨rfl, -⟩ := List.append_eq_nil_iff.mp (Except.ok.inj h)
            exact .inr (bareAt_of_leads (.move hmove (leads_branch hword hcode htarget hforward))
              (bareAt_or_of_visit_eq_nil _ before hfirst))
      next hflag =>
        rw [if_neg hflag] at hmove
        obtain ⟨⟨path', next, hnext⟩, hchain, h⟩ := bind_eq_ok_iff.mp h
        obtain ⟨v, -, hleads⟩ := leads_of_chain_eq_ok hchain
        exact .inr (bareAt_of_leads (.move hmove hleads) (bareAt_or_of_visit_eq_nil _ before h))
termination_by r.table.size - offset

/-! ## What visits contribute -/

/-- What has been found at some step comes first in the outcome. -/
theorem isPrefix_of_iterate_step {visits : List Visit} {before : List StoredMatch}
    (h : r.step^[n] (.going visits before) = .ended (.ok found)) : before <+: found := by
  induction n generalizing visits before with
  | zero => cases h
  | succ n ih =>
    have hstep := stepsTo_step r (.going visits before)
    rw [Function.iterate_succ_apply] at h
    generalize r.step (.going visits before) = next at h hstep
    cases hstep with
    | finish =>
      rw [iterate_step_ended] at h
      injection h with heq
      exact Except.ok.inj heq ▸ List.prefix_refl before
    | fail =>
      rw [iterate_step_ended] at h
      cases h
    | move outer before hmove => exact (List.prefix_append before _).trans (ih h)

theorem isPrefix_of_after (hdecode : r.decode = .ok found) (h : r.after n = .going visits before) :
    before <+: found := by
  obtain ⟨m, hm⟩ := exists_after_eq_ended r
  refine isPrefix_of_iterate_step (?_ : r.step^[m] (.going visits before) = .ended (.ok found))
  rw [← h, ← after_add, Nat.add_comm, after_add, hm, iterate_step_ended, hdecode]

/-- If a table is read, every visit comes to its end, and what it finds is part of the outcome. -/
theorem exists_visit_eq_ok (hdecode : r.decode = .ok found)
    (h : r.after n = .going (.enter offset path :: outer) before) :
    ∃ new m, r.visit offset path = .ok new ∧ r.after (n + m) = .going outer (before ++ new) ∧
      before ++ new <+: found := by
  obtain ⟨m, hm⟩ := leads_visit (r := r) offset path outer before
  rw [← h, ← after_add] at hm
  cases hvisit : r.visit offset path with
  | error e =>
    rw [hvisit] at hm
    have hend := eq_decode_of_after hm
    rw [hdecode] at hend
    cases hend
  | ok new =>
    rw [hvisit] at hm
    exact ⟨new, m + 1, rfl, hm, isPrefix_of_after hdecode hm⟩

/-- Whether an entry is visited in the course of a walk. -/
def Visits (r : Reader) (offset : Nat) : Prop :=
  ∃ n path outer before, r.after n = .going (.enter offset path :: outer) before

/-- If a table that is not empty is read, all of its visits find something, which is then part of the
outcome, just if none of them is at a bare entry. In that case the outcome is not empty. -/
theorem visits_fruitful_iff (hsize : 0 < r.table.size) (hdecode : r.decode = .ok found) :
    ((∀ n offset path outer before, r.after n = .going (.enter offset path :: outer) before →
        ∃ new m, r.visit offset path = .ok new ∧ r.after (n + m) = .going outer (before ++ new) ∧
          before ++ new <+: found ∧ new ≠ []) ↔
      ∀ offset, r.Visits offset → ¬ r.BareAt offset) ∧
    ((∀ offset, r.Visits offset → ¬ r.BareAt offset) → found ≠ []) := by
  have hfruitful : (∀ offset, r.Visits offset → ¬ r.BareAt offset) →
      ∀ n offset path outer before, r.after n = .going (.enter offset path :: outer) before →
        ∃ new m, r.visit offset path = .ok new ∧ r.after (n + m) = .going outer (before ++ new) ∧
          before ++ new <+: found ∧ new ≠ [] := by
    intro hbare n offset path outer before h
    obtain ⟨new, m, hvisit, hm, hprefix⟩ := exists_visit_eq_ok hdecode h
    refine ⟨new, m, hvisit, hm, hprefix, ?_⟩
    rintro rfl
    rcases bareAt_or_of_visit_eq_nil outer before hvisit with
      hat | ⟨offset', path', outer', hat, k, hk⟩
    · exact hbare offset ⟨n, path, outer, before, h⟩ hat
    · rw [← h, ← after_add] at hk
      exact hbare offset' ⟨_, path', outer', before, hk⟩ hat
  refine ⟨⟨?_, hfruitful⟩, ?_⟩
  · rintro hall offset ⟨n, path, outer, before, h⟩ hat
    obtain ⟨new, -, hvisit, -, -, hne⟩ := hall n offset path outer before h
    rw [visit_of_bareAt hat] at hvisit
    exact hne (Except.ok.inj hvisit).symm
  · intro hbare
    -- the first entry is always visited
    have hstart : r.after 0 = .going [.enter 0 []] [] := by
      have hempty : r.table.isEmpty = false := by simpa using Nat.ne_of_gt hsize
      show r.start = _
      rw [start, hempty]
      rfl
    obtain ⟨new, -, -, -, hprefix, hne⟩ := hfruitful hbare 0 0 [] [] [] hstart
    rintro rfl
    exact hne (List.prefix_nil.mp hprefix)

/-- In this table a run leads to a match. -/
theorem visits_fruitful_iff_one_match :
    ∃ r : Reader, ∃ found, r.table = #[0x0004, 0, 0x8001, 0] ∧ r.pool = #[120] ∧ 0 < r.table.size ∧
      r.decode = .ok found ∧ (∀ offset, r.Visits offset → ¬ r.BareAt offset) ∧ found ≠ [] := by
  obtain ⟨r, found, htable, hpool, hend⟩ : ∃ r : Reader, ∃ found,
      r.table = #[0x0004, 0, 0x8001, 0] ∧ r.pool = #[120] ∧ r.after 7 = .ended (.ok found) :=
    ⟨⟨⟨['★'], ['☆'], ' ', by decide, by decide⟩, _, _⟩, _, rfl, rfl, rfl⟩
  have hdecode := (eq_decode_of_after hend).symm
  have hsize : 0 < r.table.size := by rw [htable]; decide
  have hbare : ∀ offset, r.Visits offset → ¬ r.BareAt offset := by
    intro offset _ hat
    obtain ⟨hlt, hword⟩ := wordAt_eq_ok_iff.mp hat
    have hnone : UInt16.ofNat Table.branchFlag ∉ r.table := by simp [htable, Table.branchFlag]
    exact hnone (hword ▸ Array.getElem_mem hlt)
  exact ⟨r, found, htable, hpool, hsize, hdecode, hbare,
    (visits_fruitful_iff hsize hdecode).2 hbare⟩

/-- A table that is one bare entry is read, though nothing is stored in it. -/
theorem bare_entry_is_read :
    ∃ r : Reader, r.table = #[0x4000] ∧ 0 < r.table.size ∧ r.Visits 0 ∧ r.decode = .ok [] := by
  obtain ⟨r, htable, hstart, hend⟩ : ∃ r : Reader, r.table = #[0x4000] ∧
      r.after 0 = .going [.enter 0 []] [] ∧ r.after 3 = .ended (.ok []) :=
    ⟨⟨⟨['★'], ['☆'], ' ', by decide, by decide⟩, _, #[]⟩, rfl, rfl, rfl⟩
  exact ⟨r, htable, by rw [htable]; decide, ⟨0, [], [], [], hstart⟩, (eq_decode_of_after hend).symm⟩

end Shorthand.Reader
