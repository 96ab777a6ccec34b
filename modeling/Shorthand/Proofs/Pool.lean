import Shorthand.Pool
import Shorthand.Proofs.Outcome
import Mathlib.Algebra.Order.BigOperators.Group.List
import Mathlib.Algebra.Order.Group.Nat
import Mathlib.Algebra.Ring.Nat

/-!
# Pools hold their outputs

A pool only grows at its end, so a text that stands at an offset stays there: `Pool.WellFormed` says that
every output placed so far can be read back at its offset, and `Pool.WellFormed.place` that placing one
more keeps this.

Outputs have a pool if all of them are ASCII and the bytes that are placed one after the other do not
grow beyond what offsets reach (`Pool.exists_ofOutputs_iff`). `Pool.greedy` are these bytes, whether or
not they are too many.
-/

namespace Shorthand.Pool

/-! ## Bytes of texts -/

theorem utf8Size_eq_one {c : Char} (h : c.toNat < 128) : c.utf8Size = 1 := by
  rw [Char.utf8Size_eq_one_iff, UInt32.le_iff_toNat_le]
  exact Nat.le_of_lt_succ h

/-- A number below 128 is not cut off. -/
theorem toNat_toUInt8 {c : Char} (h : c.toNat < 128) : c.toUInt8.toNat = c.toNat := by
  simp only [Char.toUInt8, UInt32.toNat_toUInt8]
  exact Nat.mod_eq_of_lt (show c.val.toNat < 256 by
    have : c.val.toNat = c.toNat := rfl
    omega)

theorem utf8ByteSize_ofList {l : List Char} (hl : ∀ c ∈ l, c.toNat < 128) :
    (String.ofList l).utf8ByteSize = l.length := by
  induction l with
  | nil => rfl
  | cons c l ih =>
    have hsplit : String.ofList (c :: l) = String.singleton c ++ String.ofList l := by
      rw [String.singleton_eq_ofList, ← String.ofList_append]
      rfl
    rw [hsplit, String.utf8ByteSize_append, String.utf8ByteSize_singleton,
      utf8Size_eq_one (hl c (List.mem_cons_self ..)), ih fun d hd => hl d (List.mem_cons_of_mem _ hd),
      List.length_cons, Nat.add_comm]

theorem toNat_lt_of_isAscii {text : String} (h : isAscii text) : ∀ c ∈ text.toList, c.toNat < 128 := by
  simpa [isAscii] using h

/-- An ASCII text has one byte for each character. -/
theorem utf8ByteSize_eq_of_isAscii {text : String} (h : isAscii text) :
    text.utf8ByteSize = (bytes text).length := by
  simpa [bytes] using utf8ByteSize_ofList (toNat_lt_of_isAscii h)

theorem utf8ByteSize_eq_length {text : String} (h : isAscii text) :
    text.utf8ByteSize = text.length := by
  rw [utf8ByteSize_eq_of_isAscii h, bytes, List.length_map, String.length_toList]

/-- The bytes of an ASCII text are the numbers of its characters. -/
theorem map_ofNat_bytes {text : String} (h : isAscii text) :
    (bytes text).map (fun byte => Char.ofNat byte.toNat) = text.toList := by
  rw [bytes, List.map_map]
  refine (List.map_congr_left fun c hc => ?_).trans (List.map_id _)
  simp [toNat_toUInt8 (toNat_lt_of_isAscii h c hc)]

/-! ## Occurrences -/

/-- A block stands at an offset if it comes next there. -/
theorem occursAt_iff {data : Array UInt8} {block : List UInt8} {offset : Nat} :
    occursAt data block offset ↔ block <+: data.toList.drop offset := by
  induction block generalizing offset with
  | nil => simp [occursAt]
  | cons b block ih =>
    rw [occursAt]
    split
    -- the offset is within the data, so there is a byte to compare
    next h =>
      have hdrop : data.toList.drop offset = data[offset] :: data.toList.drop (offset + 1) := by
        rw [List.drop_eq_getElem_cons (by simpa using h), Array.getElem_toList]
      rw [hdrop, List.cons_prefix_cons, Bool.and_eq_true, beq_iff_eq, ih, eq_comm]
    next h =>
      have hdrop : data.toList.drop offset = [] := List.drop_eq_nil_of_le (by simpa using h)
      simp [hdrop]

theorem occursAt_of_findFrom? {data : Array UInt8} {block : List UInt8} {offset found : Nat}
    (hle : offset ≤ data.size) (h : findFrom? data block offset = some found) :
    found ≤ data.size ∧ block <+: data.toList.drop found := by
  induction offset using findFrom?.induct data block with
  | case1 offset hoccurs =>
    rw [findFrom?, if_pos hoccurs] at h
    obtain rfl := Option.some.inj h
    exact ⟨hle, occursAt_iff.mp hoccurs⟩
  | case2 offset hoccurs hlt ih =>
    rw [findFrom?, if_neg hoccurs, if_pos hlt] at h
    exact ih hlt h
  | case3 offset hoccurs hlt =>
    rw [findFrom?, if_neg hoccurs, if_neg hlt] at h
    cases h

theorem toList_extract_of_isPrefix {data : Array UInt8} {block : List UInt8} {offset : Nat}
    (h : block <+: data.toList.drop offset) :
    (data.extract offset (offset + block.length)).toList = block := by
  rw [Array.toList_extract, List.extract_eq_take_drop, Nat.add_sub_cancel_left]
  exact List.prefix_iff_eq_take.mp h |>.symm

theorem add_length_le_of_isPrefix {data : Array UInt8} {block : List UInt8} {offset : Nat}
    (h : block <+: data.toList.drop offset) (hne : offset ≤ data.size) :
    offset + block.length ≤ data.size := by
  have hlen := h.length_le
  have hsize : data.toList.length = data.size := Array.length_toList
  rw [List.length_drop] at hlen
  omega

/-! ## Placing outputs -/

/-- The bytes after an output was placed, however many these are. -/
def grow (data : Array UInt8) (output : String) : Array UInt8 :=
  if (findFrom? data (bytes output) 0).isSome then data else data ++ bytes output

/-- The bytes of all outputs, however many these are. -/
def greedy (outputs : List String) : Array UInt8 :=
  (placementOrder outputs).foldl grow #[]

/-- Whether every output placed can be read back. -/
structure WellFormed (pool : Pool) : Prop where
  /-- Offsets reach all bytes. -/
  size_le : pool.data.size ≤ maxSize
  /-- An output is ASCII and stands at its offset. -/
  stands : ∀ (output : String) (offset : Nat), pool.offset? output = some offset →
    isAscii output ∧ offset ≤ pool.data.size ∧ bytes output <+: pool.data.toList.drop offset

theorem wellFormed_empty : WellFormed {} :=
  ⟨Nat.zero_le _, fun output offset h => by simp [offset?] at h⟩

variable {pool pool' : Pool} {output : String}

theorem isPrefix_grow (data : Array UInt8) (output : String) :
    data.toList <+: (grow data output).toList := by
  unfold grow
  split
  · exact List.prefix_refl _
  · simp

theorem size_le_size_grow (data : Array UInt8) (output : String) :
    data.size ≤ (grow data output).size := by
  simpa using (isPrefix_grow data output).length_le

/-- An output takes its own characters at most. -/
theorem size_grow_le (data : Array UInt8) (output : String) :
    (grow data output).size ≤ data.size + output.length := by
  unfold grow
  split
  · exact Nat.le_add_right _ _
  · have hlength : (bytes output).length = output.length := by
      rw [bytes, List.length_map, String.length_toList]
    rw [← hlength, ← Array.length_toList, Array.toList_appendList, List.length_append,
      Array.length_toList]

theorem size_foldl_grow_le (data : Array UInt8) (outputs : List String) :
    (outputs.foldl grow data).size ≤ data.size + (outputs.map String.length).sum := by
  induction outputs generalizing data with
  | nil => exact Nat.le_refl _
  | cons output outputs ih =>
    have hgrow := size_grow_le data output
    have hrest := ih (grow data output)
    rw [List.foldl_cons, List.map_cons, List.sum_cons]
    omega

theorem size_le_size_foldl_grow (data : Array UInt8) (outputs : List String) :
    data.size ≤ (outputs.foldl grow data).size := by
  induction outputs generalizing data with
  | nil => exact Nat.le_refl _
  | cons output outputs ih => exact Nat.le_trans (size_le_size_grow data output) (ih _)

/-- An output is placed if it is ASCII and the bytes are not too many afterwards. -/
theorem place_eq_ok_iff (hsize : pool.data.size ≤ maxSize) :
    (place pool output).result = .ok pool' ↔
      isAscii output ∧ (grow pool.data output).size ≤ maxSize ∧
        pool' = ⟨grow pool.data output, pool.offsets.insert output
          ((findFrom? pool.data (bytes output) 0).getD pool.data.size),
            max pool.maxLength output.utf8ByteSize⟩ := by
  unfold place grow
  by_cases hascii : isAscii output
  · cases hfind : findFrom? pool.data (bytes output) 0 with
    -- the bytes are there already
    | some offset => simp [hascii, hsize, eq_comm]
    | none =>
      -- the bytes are added, if they are not too many then
      by_cases hmax : maxSize < (pool.data ++ bytes output).size
      · simp [hascii, hmax, Nat.not_le.mpr hmax]
      · simp [hascii, hmax, Nat.not_lt.mp hmax, eq_comm]
  · simp [hascii]

theorem isPrefix_drop {block data data' : List UInt8} {offset : Nat}
    (hblock : block <+: data.drop offset) (hle : offset ≤ data.length) (hdata : data <+: data') :
    block <+: data'.drop offset := by
  obtain ⟨rest, rfl⟩ := hdata
  rw [List.drop_append_of_le_length hle]
  exact hblock.trans (List.prefix_append ..)

/-- Placing one more output keeps those placed before. -/
theorem WellFormed.place (h : pool.WellFormed) (hplace : (place pool output).result = .ok pool') :
    pool'.WellFormed := by
  obtain ⟨hascii, hmax, rfl⟩ := (place_eq_ok_iff h.size_le).mp hplace
  refine ⟨hmax, fun text offset hoffset => ?_⟩
  simp only [offset?, Std.HashMap.getElem?_insert, beq_iff_eq] at hoffset
  split at hoffset
  -- the output placed: either it was found or it was put at the end
  next heq =>
    obtain rfl := heq
    obtain rfl := Option.some.inj hoffset
    cases hfind : findFrom? pool.data (bytes output) 0 with
    | some found =>
      obtain ⟨hle, hstands⟩ := occursAt_of_findFrom? (Nat.zero_le _) hfind
      exact ⟨hascii, by simpa [grow, hfind] using hle, by simpa [grow, hfind] using hstands⟩
    | none =>
      refine ⟨hascii, size_le_size_grow .., ?_⟩
      simp [grow, hfind]
  next =>
    -- any other output stands where it stood
    obtain ⟨hascii, hle, hstands⟩ := h.stands text offset hoffset
    exact ⟨hascii, Nat.le_trans hle (size_le_size_grow ..),
      isPrefix_drop hstands (by simpa using hle) (isPrefix_grow ..)⟩

/-! ## Placing all outputs -/

/-- Outputs that were placed one after the other all have offsets, in the bytes that the greedy choice
gives. -/
theorem WellFormed.foldlM_place {outputs : List String} (h : pool.WellFormed)
    (hfold : outputs.foldlM (fun pool output => (Pool.place pool output).result) pool = .ok pool') :
    pool'.WellFormed ∧ pool'.data = outputs.foldl grow pool.data ∧
      (∀ output ∈ outputs, isAscii output) ∧
        ∀ output, (pool'.offset? output).isSome ↔
          output ∈ outputs ∨ (pool.offset? output).isSome := by
  induction outputs generalizing pool with
  | nil =>
    cases hfold
    exact ⟨h, rfl, List.forall_mem_nil _, fun _ => by simp⟩
  | cons output outputs ih =>
    rw [List.foldlM_cons] at hfold
    obtain ⟨next, hplace, hfold⟩ := bind_eq_ok_iff.mp hfold
    obtain ⟨hwf, hdata, hall, hoffset⟩ := ih (h.place hplace) hfold
    obtain ⟨hascii, -, rfl⟩ := (place_eq_ok_iff h.size_le).mp hplace
    refine ⟨hwf, hdata, List.forall_mem_cons.mpr ⟨hascii, hall⟩, fun text => ?_⟩
    rw [hoffset, List.mem_cons]
    simp only [offset?, Std.HashMap.getElem?_insert, beq_iff_eq]
    grind

/-- The pool knows the length of the longest of them. -/
theorem WellFormed.maxLength_of_foldlM_place {outputs : List String} (h : pool.WellFormed)
    (hfold : outputs.foldlM (fun pool output => (Pool.place pool output).result) pool = .ok pool') :
    pool'.maxLength = (outputs.map (·.utf8ByteSize)).foldl max pool.maxLength := by
  induction outputs generalizing pool with
  | nil =>
    cases hfold
    rfl
  | cons output outputs ih =>
    rw [List.foldlM_cons] at hfold
    obtain ⟨next, hplace, hfold⟩ := bind_eq_ok_iff.mp hfold
    rw [ih (h.place hplace) hfold]
    obtain ⟨-, -, rfl⟩ := (place_eq_ok_iff h.size_le).mp hplace
    rfl

/-- ASCII outputs can be placed one after the other if the bytes are not too many in the end. -/
theorem WellFormed.exists_foldlM_place {outputs : List String} (h : pool.WellFormed)
    (hall : ∀ output ∈ outputs, isAscii output)
    (hmax : (outputs.foldl grow pool.data).size ≤ maxSize) :
    ∃ pool', outputs.foldlM (fun pool output => (Pool.place pool output).result) pool =
      .ok pool' := by
  induction outputs generalizing pool with
  | nil => exact ⟨pool, rfl⟩
  | cons output outputs ih =>
    rw [List.forall_mem_cons] at hall
    -- the bytes only become more, so none of the steps has too many
    have hgrow : (grow pool.data output).size ≤ maxSize :=
      Nat.le_trans (size_le_size_foldl_grow _ outputs) hmax
    have hplace := (place_eq_ok_iff h.size_le).mpr ⟨hall.1, hgrow, rfl⟩
    obtain ⟨pool', hfold⟩ := ih (h.place hplace) hall.2 hmax
    exact ⟨pool', by rw [List.foldlM_cons, hplace]; exact hfold⟩

-- `kept` is what the loop has found so far, the latest first
theorem eraseRepsBy_loop_eq (l kept : List String) (a : String) :
    List.eraseRepsBy.loop (· == ·) a l kept =
      kept.reverse ++ List.eraseRepsBy.loop (· == ·) a l [] := by
  induction l generalizing a kept with
  | nil => simp [List.eraseRepsBy.loop]
  | cons b l ih =>
    rw [List.eraseRepsBy.loop, List.eraseRepsBy.loop]
    split
    · exact ih kept a
    · rw [ih (a :: kept) b, ih [a] b, List.reverse_cons, List.append_assoc]
      rfl

/-- Of two equal elements side by side, only one is kept. -/
theorem eraseReps_cons_cons (a b : String) (l : List String) :
    (a :: b :: l).eraseReps = if a = b then (a :: l).eraseReps else a :: (b :: l).eraseReps := by
  show List.eraseRepsBy.loop (· == ·) a (b :: l) [] = _
  rw [List.eraseRepsBy.loop]
  by_cases heq : a = b
  · rw [if_pos heq, beq_iff_eq.mpr heq]
    rfl
  · rw [if_neg heq, beq_eq_false_iff_ne.mpr heq]
    exact eraseRepsBy_loop_eq l [a] b

/-- Only repetitions of an element are left out. -/
theorem mem_eraseReps_iff {l : List String} {text : String} : text ∈ l.eraseReps ↔ text ∈ l := by
  match l with
  | [] => rfl
  | [a] => rfl
  | a :: b :: l =>
    rw [eraseReps_cons_cons]
    split
    next heq => rw [mem_eraseReps_iff, ← heq]; simp
    next => rw [List.mem_cons, List.mem_cons, mem_eraseReps_iff]

theorem eraseReps_sublist {l : List String} : l.eraseReps.Sublist l := by
  match l with
  | [] => exact .refl _
  | [a] => exact .refl _
  | a :: b :: l =>
    rw [eraseReps_cons_cons]
    split
    next heq => exact heq ▸ eraseReps_sublist.cons a
    next => exact eraseReps_sublist.cons_cons a

/-- The bytes of a pool are no more than the characters of its outputs. -/
theorem size_greedy_le (outputs : List String) :
    (greedy outputs).size ≤ (outputs.map String.length).sum := by
  have hsublist : ((placementOrder outputs).map String.length).Sublist
      ((outputs.mergeSort comesFirst).map String.length) := eraseReps_sublist.map _
  have hperm : ((outputs.mergeSort comesFirst).map String.length).Perm
      (outputs.map String.length) := (List.mergeSort_perm outputs comesFirst).map _
  calc (greedy outputs).size
      ≤ (#[] : Array UInt8).size + ((placementOrder outputs).map String.length).sum :=
        size_foldl_grow_le #[] _
    _ = ((placementOrder outputs).map String.length).sum := Nat.zero_add _
    _ ≤ ((outputs.mergeSort comesFirst).map String.length).sum :=
        hsublist.sum_le_sum fun _ _ => Nat.zero_le _
    _ = (outputs.map String.length).sum := hperm.sum_nat

theorem mem_placementOrder_iff {outputs : List String} {text : String} :
    text ∈ placementOrder outputs ↔ text ∈ outputs := by
  rw [placementOrder, mem_eraseReps_iff, List.mem_mergeSort]

section

variable {outputs : List String} (h : (ofOutputs outputs).result = .ok pool)
include h

theorem wellFormed_of_ofOutputs : pool.WellFormed := by
  rw [ofOutputs, LoggedExcept.result_foldlM] at h
  exact (wellFormed_empty.foldlM_place h).1

theorem data_of_ofOutputs : pool.data = greedy outputs := by
  rw [ofOutputs, LoggedExcept.result_foldlM] at h
  exact (wellFormed_empty.foldlM_place h).2.1

theorem maxLength_of_ofOutputs :
    pool.maxLength = ((placementOrder outputs).map (·.utf8ByteSize)).foldl max 0 := by
  rw [ofOutputs, LoggedExcept.result_foldlM] at h
  exact wellFormed_empty.maxLength_of_foldlM_place h

/-- A pool has offsets for its outputs and for no other text. -/
theorem isSome_offset?_iff {text : String} : (pool.offset? text).isSome ↔ text ∈ outputs := by
  rw [ofOutputs, LoggedExcept.result_foldlM] at h
  rw [(wellFormed_empty.foldlM_place h).2.2.2, mem_placementOrder_iff]
  simp [offset?]

end

/-- Outputs have a pool if they are ASCII and the greedy choice does not take too many bytes. -/
theorem exists_ofOutputs_iff {outputs : List String} :
    (∃ pool, (ofOutputs outputs).result = .ok pool) ↔
      (∀ output ∈ outputs, isAscii output) ∧ (greedy outputs).size ≤ maxSize := by
  constructor
  · rintro ⟨pool, h⟩
    have hwf := wellFormed_of_ofOutputs h
    refine ⟨fun output hmem => ?_, data_of_ofOutputs h ▸ hwf.size_le⟩
    obtain ⟨offset, hoffset⟩ := Option.isSome_iff_exists.mp ((isSome_offset?_iff h).mpr hmem)
    exact (hwf.stands output offset hoffset).1
  · rintro ⟨hall, hmax⟩
    rw [ofOutputs, LoggedExcept.result_foldlM]
    exact wellFormed_empty.exists_foldlM_place
      (fun output hmem => hall output (mem_placementOrder_iff.mp hmem)) hmax

/-- Offsets in a pool are small enough for words. -/
theorem WellFormed.toNat_ofNat (h : pool.WellFormed) {offset : Nat}
    (hoffset : pool.offset? output = some offset) : (UInt16.ofNat offset).toNat = offset := by
  obtain ⟨-, hle, -⟩ := h.stands output offset hoffset
  have hmax := h.size_le
  exact UInt16.toNat_ofNat_of_lt' (by unfold maxSize at hmax; unfold UInt16.size; omega)

/-- An output that was placed is read back at its offset. -/
theorem WellFormed.read_eq (h : pool.WellFormed) {offset : Nat}
    (hoffset : pool.offset? output = some offset) :
    offset + output.utf8ByteSize ≤ pool.data.size ∧
      (pool.data.extract offset (offset + output.utf8ByteSize)).toList.map
        (fun byte => Char.ofNat byte.toNat) = output.toList := by
  obtain ⟨hascii, hle, hstands⟩ := h.stands output offset hoffset
  rw [utf8ByteSize_eq_of_isAscii hascii, toList_extract_of_isPrefix hstands]
  exact ⟨add_length_le_of_isPrefix hstands hle, map_ofNat_bytes hascii⟩

end Shorthand.Pool
