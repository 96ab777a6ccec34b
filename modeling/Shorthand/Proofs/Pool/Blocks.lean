import Shorthand.Proofs.Pool.Order

/-!
# What the bytes of a pool are

An output that does not stand in the pool yet adds its bytes as a block at the end, and no other output
adds any: `Pool.added` are the outputs that do. So the pool is the concatenation of these blocks
(`Pool.toList_foldl_grow`).

Outputs come in decreasing length. One that is part of another output therefore comes after it, when
the bytes of the other one stand in the pool already, whether as a block of their own or not. No such
output adds a block (`Pool.not_isInfix_of_mem_added`), and in particular no block is part of another.
-/

namespace Shorthand.Pool

variable {data : Array UInt8} {block : List UInt8} {s t output : String} {outputs : List String}
  {pool : Pool}

/-! ## Bytes -/

/-- The bytes of an ASCII text are those of its UTF-8 form. -/
theorem bytes_eq_of_isAscii (h : isAscii output) : bytes output = output.toByteArray.data.toList := by
  rw [← String.utf8Encode_toList, List.utf8Encode, List.data_toByteArray, List.toList_toArray, bytes,
    List.map_eq_flatMap]
  refine List.flatMap_congr fun c hc => ?_
  rw [String.utf8EncodeChar_eq_singleton (utf8Size_eq_one (toNat_lt_of_isAscii h c hc)),
    Char.toUInt8_val]

theorem bytes_injective (hs : isAscii s) (ht : isAscii t) (h : bytes s = bytes t) : s = t := by
  rw [← String.toList_inj, ← map_ofNat_bytes hs, ← map_ofNat_bytes ht, h]

/-- The bytes of ASCII texts are in the order of the texts. -/
theorem bytes_lt_bytes (hs : isAscii s) (ht : isAscii t) (h : s < t) : bytes s < bytes t := by
  have hs := toNat_lt_of_isAscii hs
  have ht := toNat_lt_of_isAscii ht
  rw [String.lt_iff] at h
  unfold bytes
  generalize s.toList = l at hs h
  generalize t.toList = l' at ht h
  induction h with
  | nil => exact List.nil_lt_cons ..
  | cons _ ih =>
    exact List.cons_lt_cons_iff.mpr (.inr ⟨rfl, ih (List.forall_mem_cons.mp hs).2
      (List.forall_mem_cons.mp ht).2⟩)
  | rel hlt =>
    refine List.cons_lt_cons_iff.mpr (.inl ?_)
    rw [UInt8.lt_iff_toNat_lt, toNat_toUInt8 (List.forall_mem_cons.mp hs).1,
      toNat_toUInt8 (List.forall_mem_cons.mp ht).1]
    exact hlt

/-- A text that is not shorter than another one is part of it only if they are equal. -/
theorem eq_of_isInfix (hs : isAscii s) (ht : isAscii t) (hsize : t.utf8ByteSize ≤ s.utf8ByteSize)
    (h : bytes s <:+: bytes t) : s = t := by
  rw [utf8ByteSize_eq_of_isAscii hs, utf8ByteSize_eq_of_isAscii ht] at hsize
  exact bytes_injective hs ht (h.eq_of_length_le hsize)

/-! ## Searching -/

/-- The search goes on until it comes to a place where the block stands. -/
theorem isSome_findFrom? {offset found : Nat} (hle : offset ≤ found) (hsize : found ≤ data.size)
    (h : block <+: data.toList.drop found) : (findFrom? data block offset).isSome := by
  induction offset using findFrom?.induct data block with
  | case1 offset hoccurs => rw [findFrom?, if_pos hoccurs]; rfl
  | case2 offset hoccurs hlt ih =>
    rw [findFrom?, if_neg hoccurs, if_pos hlt]
    refine ih (Nat.lt_of_le_of_ne hle ?_)
    rintro rfl
    exact hoccurs (occursAt_iff.mpr h)
  | case3 offset hoccurs hlt =>
    obtain rfl : offset = found := Nat.le_antisymm hle (Nat.le_trans hsize (Nat.not_lt.mp hlt))
    exact absurd (occursAt_iff.mpr h) hoccurs

/-- A block is found if it is part of the data. -/
theorem isSome_findFrom?_iff : (findFrom? data block 0).isSome ↔ block <:+: data.toList := by
  rw [List.infix_iff_prefix_suffix]
  constructor
  · intro h
    obtain ⟨found, hfound⟩ := Option.isSome_iff_exists.mp h
    obtain ⟨-, hprefix⟩ := occursAt_of_findFrom? (Nat.zero_le _) hfound
    exact ⟨_, hprefix, List.drop_suffix ..⟩
  · rintro ⟨rest, hprefix, before, hdata⟩
    refine isSome_findFrom? (Nat.zero_le before.length) ?_ ?_
    · rw [← Array.length_toList, ← hdata, List.length_append]
      exact Nat.le_add_right ..
    · rwa [← hdata, List.drop_left]

theorem grow_of_isInfix (h : bytes output <:+: data.toList) : grow data output = data := by
  rw [grow, if_pos (isSome_findFrom?_iff.mpr h)]

theorem toList_grow_of_not_isInfix (h : ¬ bytes output <:+: data.toList) :
    (grow data output).toList = data.toList ++ bytes output := by
  rw [grow, if_neg (mt isSome_findFrom?_iff.mp h), Array.toList_appendList]

/-- An output stands in the data once it was placed. -/
theorem isInfix_grow (data : Array UInt8) (output : String) :
    bytes output <:+: (grow data output).toList := by
  by_cases h : bytes output <:+: data.toList
  · rwa [grow_of_isInfix h]
  · rw [toList_grow_of_not_isInfix h]
    exact (List.suffix_append ..).isInfix

/-! ## Blocks -/

/-- The outputs that add their bytes when they are placed one after the other behind `data`. -/
def added (data : Array UInt8) : List String → List String
  | [] => []
  | output :: outputs =>
    if (findFrom? data (bytes output) 0).isSome then added data outputs
    else output :: added (grow data output) outputs

theorem added_cons_of_isInfix (h : bytes output <:+: data.toList) :
    added data (output :: outputs) = added data outputs := by
  rw [added, if_pos (isSome_findFrom?_iff.mpr h)]

theorem added_cons_of_not_isInfix (h : ¬ bytes output <:+: data.toList) :
    added data (output :: outputs) = output :: added (grow data output) outputs := by
  rw [added, if_neg (mt isSome_findFrom?_iff.mp h)]

theorem added_sublist : (added data outputs).Sublist outputs := by
  induction outputs generalizing data with
  | nil => exact .refl _
  | cons output outputs ih =>
    by_cases h : bytes output <:+: data.toList
    · rw [added_cons_of_isInfix h]
      exact ih.cons _
    · rw [added_cons_of_not_isInfix h]
      exact ih.cons_cons _

/-- The data are followed by the bytes of the outputs that add theirs. -/
theorem toList_foldl_grow (data : Array UInt8) (outputs : List String) :
    (outputs.foldl grow data).toList = data.toList ++ (added data outputs).flatMap bytes := by
  induction outputs generalizing data with
  | nil => simp [added]
  | cons output outputs ih =>
    rw [List.foldl_cons, ih]
    by_cases h : bytes output <:+: data.toList
    · rw [grow_of_isInfix h, added_cons_of_isInfix h]
    · rw [toList_grow_of_not_isInfix h, added_cons_of_not_isInfix h, List.flatMap_cons,
        List.append_assoc]

/-- An output that adds its bytes is not part of what stood there before. -/
theorem not_isInfix_data_of_mem_added (h : t ∈ added data outputs) : ¬ bytes t <:+: data.toList := by
  induction outputs generalizing data with
  | nil => cases h
  | cons output outputs ih =>
    by_cases hin : bytes output <:+: data.toList
    · exact ih (added_cons_of_isInfix hin ▸ h)
    · rw [added_cons_of_not_isInfix hin] at h
      rcases List.mem_cons.mp h with rfl | h
      · exact hin
      · intro hpart
        exact ih h (hpart.trans (isPrefix_grow ..).isInfix)

/-- Nor is it part of an output that comes before it. -/
theorem not_isInfix_or_of_mem_added {R : String → String → Prop} (hR : outputs.Pairwise R)
    (hs : s ∈ outputs) (ht : t ∈ added data outputs) :
    s = t ∨ R t s ∨ ¬ bytes t <:+: bytes s := by
  induction outputs generalizing data with
  | nil => cases hs
  | cons output outputs ih =>
    obtain ⟨hfirst, hR⟩ := List.pairwise_cons.mp hR
    -- whatever is part of the output placed now is part of the data from then on
    have hlater (hmem : t ∈ added (grow data output) outputs) : ¬ bytes t <:+: bytes output :=
      fun hpart => not_isInfix_data_of_mem_added hmem (hpart.trans (isInfix_grow ..))
    by_cases hin : bytes output <:+: data.toList
    · rw [added_cons_of_isInfix hin] at ht
      rcases List.mem_cons.mp hs with rfl | hs
      · exact .inr (.inr (hlater (by rwa [grow_of_isInfix hin])))
      · exact ih hR hs ht
    · rw [added_cons_of_not_isInfix hin] at ht
      rcases List.mem_cons.mp ht with rfl | ht
      · rcases List.mem_cons.mp hs with rfl | hs
        · exact .inl rfl
        · exact .inr (.inl (hfirst s hs))
      · rcases List.mem_cons.mp hs with rfl | hs
        · exact .inr (.inr (hlater ht))
        · exact ih hR hs ht

/-! ## Pools -/

/-- The pool is the concatenation of the outputs that add their bytes. -/
theorem toList_data_of_ofOutputs (h : (ofOutputs outputs).result = .ok pool) :
    pool.data.toList = (added #[] (placementOrder outputs)).flatMap bytes := by
  rw [data_of_ofOutputs h, greedy, toList_foldl_grow]
  exact List.nil_append _

/-- The length that a pool knows is the greatest one, or zero if it has no outputs. -/
theorem maxLength_eq_max? (h : (ofOutputs outputs).result = .ok pool) :
    pool.maxLength = (outputs.map (·.utf8ByteSize)).max?.getD 0 := by
  have hmax : ((placementOrder outputs).map (·.utf8ByteSize)).max? =
      (outputs.map (·.utf8ByteSize)).max? := by
    refine Option.ext fun n => ?_
    simp only [List.max?_eq_some_iff, List.mem_map, mem_placementOrder_iff]
  rw [maxLength_of_ofOutputs h, List.foldl_max, hmax, Nat.zero_max]

/-- Of the outputs that are placed, one that comes first is longer, or as long and its bytes are less. -/
theorem pairwise_placementOrder (hall : ∀ output ∈ outputs, isAscii output) :
    (placementOrder outputs).Pairwise fun s t => t.utf8ByteSize < s.utf8ByteSize ∨
      t.utf8ByteSize = s.utf8ByteSize ∧ bytes s < bytes t := by
  have horder : (placementOrder outputs).Pairwise fun s t => comesFirst s t :=
    (pairwise_mergeSort outputs).sublist eraseReps_sublist
  refine (horder.and (nodup_placementOrder outputs)).imp_of_mem fun {s t} hs ht hst => ?_
  obtain ⟨hfirst, hne⟩ := hst
  rcases comesFirst_iff.mp hfirst with hlt | ⟨heq, hle⟩
  · exact .inl hlt
  · -- they are different, so one is less than the other
    have hlt : s < t := by
      refine Decidable.by_contra fun hnot => hne ?_
      exact String.le_antisymm hle (String.not_lt.mp hnot)
    exact .inr ⟨heq, bytes_lt_bytes (hall _ (mem_placementOrder_iff.mp hs))
      (hall _ (mem_placementOrder_iff.mp ht)) hlt⟩

/-- No output that adds its bytes is part of another output. -/
theorem not_isInfix_of_mem_added (hall : ∀ output ∈ outputs, isAscii output)
    (hs : s ∈ outputs) (ht : t ∈ added data (placementOrder outputs)) (hne : t ≠ s) :
    ¬ bytes t <:+: bytes s := by
  have ht' : t ∈ outputs := mem_placementOrder_iff.mp (added_sublist.subset ht)
  rcases not_isInfix_or_of_mem_added (pairwise_placementOrder hall) (mem_placementOrder_iff.mpr hs)
    ht with heq | horder | hpart
  · exact absurd heq.symm hne
  · -- what comes first is not shorter
    intro hpart
    have hsize : s.utf8ByteSize ≤ t.utf8ByteSize := by
      rcases horder with hlt | ⟨heq, -⟩
      · exact Nat.le_of_lt hlt
      · exact Nat.le_of_eq heq
    exact hne (eq_of_isInfix (hall t ht') (hall s hs) hsize hpart)
  · exact hpart

/-- A pool has an offset for each of its outputs and for nothing else, at which the bytes of the output
are read, and offsets are small enough for words. Its bytes are those of some of the outputs, one after
the other by decreasing length and then by ascending bytes, none of which is part of another output. -/
theorem offsets_and_blocks (h : (ofOutputs outputs).result = .ok pool) :
    (∀ text, (pool.offset? text).isSome ↔ text ∈ outputs) ∧
    (∀ output ∈ outputs, bytes output = output.toByteArray.data.toList) ∧
    (∀ output offset, pool.offset? output = some offset →
      (UInt16.ofNat offset).toNat = offset ∧ offset + output.utf8ByteSize ≤ pool.data.size ∧
        (pool.data.extract offset (offset + output.utf8ByteSize)).toList = bytes output) ∧
    pool.data.size ≤ 65535 ∧
    pool.maxLength = (outputs.map (·.utf8ByteSize)).max?.getD 0 ∧
    ∃ blocks : List String, pool.data.toList = blocks.flatMap bytes ∧
      (∀ block ∈ blocks, block ∈ outputs) ∧
      blocks.Pairwise (fun s t => t.utf8ByteSize < s.utf8ByteSize ∨
        t.utf8ByteSize = s.utf8ByteSize ∧ bytes s < bytes t) ∧
      ∀ block ∈ blocks, ∀ output ∈ outputs, block ≠ output → ¬ bytes block <:+: bytes output := by
  have hwf := wellFormed_of_ofOutputs h
  have hall := (exists_ofOutputs_iff.mp ⟨pool, h⟩).1
  refine ⟨fun _ => isSome_offset?_iff h, fun output houtput => bytes_eq_of_isAscii (hall _ houtput),
    fun output offset hoffset => ?_, hwf.size_le, maxLength_eq_max? h,
    added #[] (placementOrder outputs), toList_data_of_ofOutputs h,
    fun block hblock => mem_placementOrder_iff.mp (added_sublist.subset hblock),
    (pairwise_placementOrder hall).sublist added_sublist,
    fun block hblock output houtput => not_isInfix_of_mem_added hall houtput hblock⟩
  obtain ⟨hascii, hle, hstands⟩ := hwf.stands output offset hoffset
  rw [utf8ByteSize_eq_of_isAscii hascii]
  exact ⟨hwf.toNat_ofNat hoffset, add_length_le_of_isPrefix hstands hle,
    toList_extract_of_isPrefix hstands⟩

/-- Of these outputs, one is part of another and one is given twice. -/
theorem offsets_and_blocks_cat :
    ∃ (pool : Pool) (blocks : List String) (offset : Nat),
      (ofOutputs ["at", "dog", "cat", "at"]).result = .ok pool ∧
      pool.offset? "at" = some offset ∧
      (pool.data.extract offset (offset + 2)).toList = bytes "at" ∧ pool.maxLength = 3 ∧
      pool.data.toList = blocks.flatMap bytes ∧ "at" ∉ blocks := by
  obtain ⟨pool, h⟩ := exists_ofOutputs_iff.mpr
    ⟨(by decide : ∀ output ∈ ["at", "dog", "cat", "at"], isAscii output),
      Nat.le_trans (size_greedy_le _) (by decide)⟩
  obtain ⟨hoffset, -, hread, -, hmax, blocks, hdata, -, -, hpart⟩ := offsets_and_blocks h
  obtain ⟨offset, hat⟩ := Option.isSome_iff_exists.mp ((hoffset "at").mpr (by decide))
  refine ⟨pool, blocks, offset, h, hat, (hread "at" offset hat).2.2, hmax, hdata, fun hmem => ?_⟩
  exact hpart "at" hmem "cat" (by decide) (by decide) ⟨bytes "c", [], rfl⟩

end Shorthand.Pool
