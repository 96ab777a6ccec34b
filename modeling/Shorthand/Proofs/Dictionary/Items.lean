import Shorthand.Proofs.Dictionary
import Mathlib.Algebra.Ring.Nat

/-!
# Items of texts put together

The items of a dictionary come from its trimmed lines, and a line that is blank or a comment has none.
So a dictionary can be read in parts (`Dictionary.numbered`): the items of a text come first, and those
of what follows its lines come after them, numbered from there on. Within a line, white space at the ends
makes no difference.

## Main statements

- `Dictionary.contentLines_eq`: the lines that are not skipped, as parts between line feeds.
- `Dictionary.numbered_append`, `Dictionary.numbered_append_cons`: the lines of two texts, one after the
  other.
- `Dictionary.items_append_line`: what follows on later lines leaves the items before as they are.
-/

namespace Shorthand.Dictionary

variable {marks : Marks} {first n line k : Nat} {text front back part part' content : List Char} {r : Rule}

/-- The trimmed lines of a text that are not skipped, numbered from `first` on. -/
def numbered (marks : Marks) (first : Nat) (text : List Char) : List (List Char × Nat) :=
  (((text.splitOn '\n').map Text.trim).zipIdx first).filter fun (content, _) =>
    !isSkipped marks content

theorem isSkipped_nil (marks : Marks) : isSkipped marks [] = true := rfl

/-- It does not matter that a text may have an empty part behind its last line feed. -/
theorem contentLines_eq (marks : Marks) (text : String) :
    contentLines marks text = numbered marks 1 text.toList := by
  unfold contentLines numbered
  rcases Text.map_trim_splitOn text.toList with hlines | hlines
  · rw [hlines]
  · rw [hlines, List.zipIdx_append, List.filter_append, List.zipIdx_singleton,
      List.filter_cons_of_neg (by simp [isSkipped_nil]), List.filter_nil, List.append_nil]

theorem items_eq (marks : Marks) (text : String) :
    items marks text = (numbered marks 1 text.toList).map fun (content, line) => item marks line content := by
  rw [items, contentLines_eq]

/-! ## Parts of a text -/

@[simp] theorem numbered_nil (marks : Marks) (first : Nat) : numbered marks first [] = [] := by
  simp [numbered, Text.trim, isSkipped_nil]

/-- One line has one content, unless it is skipped. -/
theorem numbered_of_not_mem (hpart : '\n' ∉ part) :
    numbered marks first part =
      if isSkipped marks (Text.trim part) then [] else [(Text.trim part, first)] := by
  rw [numbered, List.splitOn_eq_singleton hpart, List.map_singleton, List.zipIdx_singleton]
  split
  next hskipped => exact List.filter_cons_of_neg (by simp [hskipped])
  next hcontent => exact List.filter_cons_of_pos (by simp [hcontent])

/-- A line feed ends one line, and the next one starts behind it. -/
theorem numbered_append_cons (marks : Marks) (first : Nat) (front back : List Char) :
    numbered marks first (front ++ '\n' :: back) =
      numbered marks first front ++ numbered marks (first + front.count '\n' + 1) back := by
  rw [numbered, List.splitOn_append_cons_self, List.map_append, List.zipIdx_append, List.filter_append,
    List.length_map, Text.length_splitOn]
  rfl

/-- Where a line starts, a text can be read in two parts. -/
theorem numbered_append (hfront : Text.AtLineStart front) :
    numbered marks first (front ++ back) =
      numbered marks first front ++ numbered marks (first + front.count '\n') back := by
  rcases Text.atLineStart_iff.mp hfront with rfl | ⟨front, rfl⟩
  · simp
  · rw [List.append_assoc, List.singleton_append, numbered_append_cons, numbered_append_cons,
      numbered_nil, List.append_nil, List.count_append, List.count_singleton_self, Nat.add_assoc]

/-- White space at the ends of a line makes no difference. -/
theorem numbered_congr (hpart : '\n' ∉ part) (hpart' : '\n' ∉ part')
    (htrim : Text.trim part' = Text.trim part) (hback : Text.AtLineEnd back) :
    numbered marks first (part' ++ back) = numbered marks first (part ++ back) := by
  have hline : numbered marks first part' = numbered marks first part := by
    rw [numbered_of_not_mem hpart, numbered_of_not_mem hpart', htrim]
  rcases Text.atLineEnd_iff.mp hback with rfl | ⟨back, rfl⟩
  · rw [List.append_nil, List.append_nil, hline]
  · rw [numbered_append_cons, numbered_append_cons, hline, List.count_eq_zero.mpr hpart,
      List.count_eq_zero.mpr hpart']

/-! ## Numbers of lines -/

/-- Further down, the lines have other numbers and the same contents. -/
theorem numbered_add (marks : Marks) (first k : Nat) (text : List Char) :
    numbered marks (first + k) text =
      (numbered marks first text).map fun (content, line) => (content, line + k) := by
  rw [numbered, numbered, Nat.add_comm first, ← List.map_snd_add_zipIdx_eq_zipIdx, List.filter_map]
  rfl

theorem le_of_mem_numbered (h : (content, line) ∈ numbered marks first text) :
    first ≤ line ∧ line ≤ first + text.count '\n' := by
  obtain ⟨h, -⟩ := List.mem_filter.mp h
  obtain ⟨hle, hlt, -⟩ := List.mem_zipIdx h
  rw [List.length_map, Text.length_splitOn] at hlt
  exact ⟨hle, by omega⟩

/-- A text that ends with a line feed has no line behind it. -/
theorem lt_of_mem_numbered (hfront : Text.AtLineStart front)
    (h : (content, line) ∈ numbered marks first front) : line < first + front.count '\n' := by
  rcases Text.atLineStart_iff.mp hfront with rfl | ⟨front, rfl⟩
  · rw [numbered_nil] at h
    cases h
  · rw [numbered_append_cons, numbered_nil, List.append_nil] at h
    rw [List.count_append, List.count_singleton_self]
    have hle := (le_of_mem_numbered h).2
    omega

theorem pairwise_numbered (marks : Marks) (first : Nat) (text : List Char) :
    (numbered marks first text).Pairwise fun x y => x.2 < y.2 := by
  have hnumbers : ((((text.splitOn '\n').map Text.trim).zipIdx first).map Prod.snd).Pairwise (· < ·) := by
    rw [List.zipIdx_map_snd]
    exact List.pairwise_lt_range'
  exact (List.pairwise_map.mp hnumbers).filter _

/-! ## Items -/

/-- A rule has the number of its line. -/
theorem line_of_item (h : item marks line content = .ok r) : r.line = line := by
  unfold item at h
  split at h
  next => cases h
  next =>
    dsimp only at h
    split at h
    next => cases h
    next => cases h; rfl

/-- An item that is no rule names its line and what stands there. -/
theorem eq_invalidLine_of_item {e : DictionaryError} (h : item marks line content = .error e) :
    e = .invalidLine line (String.ofList content) := by
  unfold item at h
  split at h
  next => cases h; rfl
  next =>
    dsimp only at h
    split at h
    next => cases h; rfl
    next => cases h

theorem exists_line_of_error_mem_items {e : DictionaryError} {text : String}
    (h : .error e ∈ items marks text) :
    ∃ content line, (content, line) ∈ contentLines marks text ∧
      e = .invalidLine line (String.ofList content) := by
  obtain ⟨⟨content, line⟩, hmem, hitem⟩ := List.mem_map.mp h
  exact ⟨content, line, hmem, eq_invalidLine_of_item hitem⟩

/-- The items of a text come first, whatever follows on later lines. -/
theorem items_append_line (marks : Marks) (text rest : String) :
    ∃ later, items marks (text ++ "\n" ++ rest) = items marks text ++ later := by
  have htext : (text ++ "\n" ++ rest).toList = text.toList ++ '\n' :: rest.toList := by simp
  rw [items_eq, items_eq, htext, numbered_append_cons, List.map_append]
  exact ⟨_, rfl⟩

end Shorthand.Dictionary
