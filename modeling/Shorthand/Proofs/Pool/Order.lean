import Shorthand.Proofs.Pool

/-!
# The order in which outputs are placed

Outputs are placed in an order that is total: of two different ones, one comes first. So it does not
matter in which order they are given (`Pool.ofOutputs_perm`), and none is placed twice.

Each output that is placed either adds its bytes at the end of the pool or leaves the pool as it is.
The one that added bytes last therefore stands at the very end, and since it is not placed again its
offset says so (`Pool.exists_last_output`).
-/

namespace Shorthand.Pool

variable {s t u output : String} {outputs outputs' : List String} {pool pool' : Pool}

/-! ## A total order -/

theorem comesFirst_iff :
    comesFirst s t ↔
      t.utf8ByteSize < s.utf8ByteSize ∨ t.utf8ByteSize = s.utf8ByteSize ∧ s ≤ t := by
  simp [comesFirst]

theorem comesFirst_trans (h : comesFirst s t) (h' : comesFirst t u) : comesFirst s u := by
  rw [comesFirst_iff] at h h' ⊢
  rcases h with h | ⟨heq, hle⟩
  · left
    omega
  · rcases h' with h' | ⟨heq', hle'⟩
    · left
      omega
    · exact .inr ⟨heq'.trans heq, String.le_trans hle hle'⟩

theorem comesFirst_total (s t : String) : comesFirst s t || comesFirst t s := by
  rw [Bool.or_eq_true, comesFirst_iff, comesFirst_iff]
  rcases Nat.lt_trichotomy s.utf8ByteSize t.utf8ByteSize with hlt | heq | hgt
  · exact .inr (.inl hlt)
  · rcases String.le_total s t with hle | hle
    · exact .inl (.inr ⟨heq.symm, hle⟩)
    · exact .inr (.inr ⟨heq, hle⟩)
  · exact .inl (.inl hgt)

theorem comesFirst_antisymm (h : comesFirst s t) (h' : comesFirst t s) : s = t := by
  rw [comesFirst_iff] at h h'
  rcases h with h | ⟨heq, hle⟩
  · omega
  · rcases h' with h' | ⟨-, hle'⟩
    · omega
    · exact String.le_antisymm hle hle'

theorem pairwise_mergeSort (outputs : List String) :
    (outputs.mergeSort comesFirst).Pairwise fun s t => comesFirst s t :=
  @List.pairwise_mergeSort _ comesFirst (fun _ _ _ => comesFirst_trans) comesFirst_total outputs

/-- The order does not depend on how the outputs are listed. -/
theorem placementOrder_perm (h : outputs.Perm outputs') :
    placementOrder outputs = placementOrder outputs' := by
  have hsorted : outputs.mergeSort comesFirst = outputs'.mergeSort comesFirst := by
    refine List.Perm.eq_of_pairwise (fun _ _ _ _ => comesFirst_antisymm) (pairwise_mergeSort _)
      (pairwise_mergeSort _) ?_
    exact (List.mergeSort_perm _ _).trans (h.trans (List.mergeSort_perm _ _).symm)
  rw [placementOrder, placementOrder, hsorted]

/-- Nor does the pool. -/
theorem ofOutputs_perm (h : outputs.Perm outputs') : ofOutputs outputs = ofOutputs outputs' := by
  rw [ofOutputs, ofOutputs, placementOrder_perm h]

/-- Equal outputs stand side by side in the order, so all but one are left out. -/
theorem nodup_eraseReps {l : List String} (h : l.Pairwise fun s t => comesFirst s t) :
    l.eraseReps.Nodup := by
  match l with
  | [] => exact List.nodup_nil
  | [a] => exact List.pairwise_singleton _ a
  | a :: b :: l =>
    obtain ⟨ha, hrest⟩ := List.pairwise_cons.mp h
    rw [eraseReps_cons_cons]
    split
    next heq =>
      subst heq
      exact nodup_eraseReps hrest
    next hne =>
      refine List.nodup_cons.mpr ⟨?_, nodup_eraseReps hrest⟩
      rw [mem_eraseReps_iff]
      intro hmem
      -- an equal one further on would have the next one between them
      rcases List.mem_cons.mp hmem with heq | hmem
      · exact hne heq
      · have hb := (List.pairwise_cons.mp hrest).1 a hmem
        exact hne (comesFirst_antisymm (ha b (List.mem_cons_self ..)) hb)

theorem nodup_placementOrder (outputs : List String) : (placementOrder outputs).Nodup :=
  nodup_eraseReps (pairwise_mergeSort outputs)

/-! ## The last output -/

/-- Whether a pool is empty or an output stands at its end. -/
def EndsWithOutput (pool : Pool) : Prop :=
  pool.data.size = 0 ∨ ∃ output offset, pool.offset? output = some offset ∧
    offset + (bytes output).length = pool.data.size

/-- An output that was not placed before keeps the end of the pool or becomes it. -/
theorem EndsWithOutput.place (h : pool.EndsWithOutput) (hsize : pool.data.size ≤ maxSize)
    (hnew : pool.offset? output = none) (hplace : (Pool.place pool output).result = .ok pool') :
    pool'.EndsWithOutput := by
  obtain ⟨-, -, rfl⟩ := (place_eq_ok_iff hsize).mp hplace
  unfold EndsWithOutput
  simp only [grow, offset?, Std.HashMap.getElem?_insert, beq_iff_eq]
  cases hfind : findFrom? pool.data (bytes output) 0 with
  | some found =>
    rw [if_pos Option.isSome_some]
    rcases h with hsize | ⟨last, offset, hoffset, hend⟩
    · exact .inl hsize
    refine .inr ⟨last, offset, ?_, hend⟩
    -- the output at the end was placed before, so it is another one
    rw [if_neg]
    · exact hoffset
    · rintro rfl
      rw [hnew] at hoffset
      cases hoffset
  | none =>
    right
    exact ⟨output, pool.data.size, by simp, by rw [← Array.length_toList, ← Array.length_toList]; simp⟩

theorem EndsWithOutput.foldlM_place (h : pool.EndsWithOutput) (hwf : pool.WellFormed)
    (hnodup : outputs.Nodup) (hnew : ∀ output ∈ outputs, pool.offset? output = none)
    (hfold : outputs.foldlM (fun pool output => (Pool.place pool output).result) pool = .ok pool') :
    pool'.EndsWithOutput := by
  induction outputs generalizing pool with
  | nil =>
    cases hfold
    exact h
  | cons output outputs ih =>
    obtain ⟨hmem, hnodup⟩ := List.nodup_cons.mp hnodup
    obtain ⟨hoffset, hnew⟩ := List.forall_mem_cons.mp hnew
    rw [List.foldlM_cons] at hfold
    obtain ⟨next, hplace, hfold⟩ := bind_eq_ok_iff.mp hfold
    refine ih (h.place hwf.size_le hoffset hplace) (hwf.place hplace) hnodup ?_ hfold
    -- only one more output has an offset now, and it does not come again
    intro text htext
    obtain ⟨-, -, rfl⟩ := (place_eq_ok_iff hwf.size_le).mp hplace
    simp only [offset?, Std.HashMap.getElem?_insert, beq_iff_eq]
    rw [if_neg]
    · exact hnew text htext
    · rintro rfl
      exact hmem htext

/-- The last byte of a pool is that of some output. -/
theorem exists_last_output (h : (ofOutputs outputs).result = .ok pool) (hne : pool.data.size ≠ 0) :
    ∃ output ∈ outputs, ∃ offset, pool.offset? output = some offset ∧
      offset + output.utf8ByteSize = pool.data.size := by
  have hends : pool.EndsWithOutput := by
    rw [ofOutputs, LoggedExcept.result_foldlM] at h
    exact EndsWithOutput.foldlM_place (.inl rfl) wellFormed_empty (nodup_placementOrder outputs)
      (fun _ _ => by simp [offset?]) h
  obtain ⟨output, offset, hoffset, hend⟩ := hends.resolve_left hne
  refine ⟨output, ?_, offset, hoffset, ?_⟩
  · rw [← isSome_offset?_iff h, hoffset]
    rfl
  · obtain ⟨hascii, -, -⟩ := (wellFormed_of_ofOutputs h).stands output offset hoffset
    rw [utf8ByteSize_eq_of_isAscii hascii]
    exact hend

end Shorthand.Pool
