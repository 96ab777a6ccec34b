import Shorthand.Proofs.Text.Fill
import Mathlib.Data.List.Chain

/-!
# Filled lines are as full as they can be

Each line of a filled text holds a row of words with one space between them. The rows have all words in
order, none is too wide, and wherever one ends the next word would have made it too wide (`Full`). There is
only one way to cut a list of words into such rows, so these facts say where every line ends.

## Main statements

- `Text.exists_rows_fillFrom`: what follows on a line that is begun.
- `Text.Full.eq_of_flatten_eq`: words are cut into full rows in one way only.
- `Text.exists_wrapped_iff`: the rows of a filled list.
-/

namespace Shorthand.Text

variable {width : Nat} {word line : String} {row more words items : List String} {rows rows' : List (List String)}

/-! ## Rows of words -/

/-- The line that holds a row of words. -/
def lineOf (row : List String) : String :=
  indent ++ " ".intercalate row

theorem lineOf_nil : lineOf [] = indent := by
  rw [lineOf, String.intercalate_nil, String.append_empty]

theorem lineOf_singleton (word : String) : lineOf [word] = indent ++ word := by
  rw [lineOf, String.intercalate_singleton]

theorem lineOf_append (hrow : row ≠ []) (hmore : more ≠ []) :
    lineOf (row ++ more) = lineOf row ++ " " ++ " ".intercalate more := by
  rw [lineOf, String.intercalate_append_of_ne_nil hrow hmore, lineOf]
  simp only [String.append_assoc]

theorem lineOf_concat (hrow : row ≠ []) (word : String) :
    lineOf (row ++ [word]) = lineOf row ++ " " ++ word := by
  rw [lineOf_append hrow (List.cons_ne_nil _ _), String.intercalate_singleton]

theorem length_lineOf_concat (hrow : row ≠ []) (word : String) :
    (lineOf (row ++ [word])).length = (lineOf row).length + 1 + word.length := by
  rw [lineOf_concat hrow, String.length_append, String.length_append]
  rfl

theorem length_lineOf_le_append (hrow : row ≠ []) (more : List String) :
    (lineOf row).length ≤ (lineOf (row ++ more)).length := by
  rcases eq_or_ne more [] with rfl | hmore
  · rw [List.append_nil]
  · rw [lineOf_append hrow hmore, String.length_append, String.length_append]
    omega

/-- Whether rows of words are as full as a width allows. -/
structure Full (width : Nat) (rows : List (List String)) : Prop where
  /-- Every row has a word. -/
  held : ∀ row ∈ rows, row ≠ []
  /-- No line is too wide. -/
  fits : ∀ row ∈ rows, (lineOf row).length ≤ width
  /-- Where a line ends, the next word would have made it too wide. -/
  forced : rows.IsChain fun row next => ∀ word ∈ next.head?,
    width < (lineOf row).length + 1 + word.length

namespace Full

theorem nil : Full width [] :=
  ⟨List.forall_mem_nil _, List.forall_mem_nil _, .nil⟩

theorem cons (h : Full width rows) (hheld : row ≠ []) (hfits : (lineOf row).length ≤ width)
    (hforced : ∀ next ∈ rows.head?, ∀ word ∈ next.head?,
      width < (lineOf row).length + 1 + word.length) : Full width (row :: rows) where
  held := List.forall_mem_cons.mpr ⟨hheld, h.held⟩
  fits := List.forall_mem_cons.mpr ⟨hfits, h.fits⟩
  forced := List.isChain_cons.mpr ⟨hforced, h.forced⟩

theorem tail (h : Full width (row :: rows)) : Full width rows where
  held := (List.forall_mem_cons.mp h.held).2
  fits := (List.forall_mem_cons.mp h.fits).2
  forced := (List.isChain_cons.mp h.forced).2

theorem eq_nil_of_flatten_eq_nil (h : Full width rows) (heq : rows.flatten = []) : rows = [] := by
  cases rows with
  | nil => rfl
  | cons row rows =>
    have hrow : row = [] := (List.append_eq_nil_iff.mp heq).1
    exact absurd hrow (h.held row (List.mem_cons_self ..))

/-- The first row cannot take words of those that follow it. -/
theorem eq_nil_of_fits {rest : List String} (h : Full width (row :: rows))
    (hflatten : rows.flatten = more ++ rest) (hfits : (lineOf (row ++ more)).length ≤ width) :
    more = [] := by
  obtain ⟨hheld, -⟩ := List.forall_mem_cons.mp h.held
  cases more with
  | nil => rfl
  | cons word more =>
    cases rows with
    | nil => cases hflatten
    | cons next rows =>
      obtain ⟨first, next, rfl⟩ := List.exists_cons_of_ne_nil (h.tail.held _ (List.mem_cons_self ..))
      obtain rfl : first = word := (List.cons.inj hflatten).1
      have hforced : width < (lineOf row).length + 1 + first.length :=
        (List.isChain_cons_cons.mp h.forced).1 first rfl
      have hfirst : (lineOf (row ++ [first])).length ≤ (lineOf (row ++ [first] ++ more)).length :=
        length_lineOf_le_append (by simp) more
      rw [← List.append_cons] at hfirst
      rw [length_lineOf_concat hheld] at hfirst
      omega

/-- Words are cut into full rows in one way only. -/
theorem eq_of_flatten_eq (h : Full width rows) (h' : Full width rows')
    (heq : rows.flatten = rows'.flatten) : rows = rows' := by
  induction rows generalizing rows' with
  | nil => exact (h'.eq_nil_of_flatten_eq_nil heq.symm).symm
  | cons row rows ih =>
    cases rows' with
    | nil => exact h.eq_nil_of_flatten_eq_nil heq
    | cons row' rows' =>
      have hfits := h.fits row (List.mem_cons_self ..)
      have hfits' := h'.fits row' (List.mem_cons_self ..)
      -- one of the first rows begins with the other, and has no word more
      rcases List.append_eq_append_iff.mp heq with ⟨more, rfl, hrest⟩ | ⟨more, rfl, hrest⟩
      · obtain rfl := h.eq_nil_of_fits hrest hfits'
        rw [List.append_nil, ih h.tail h'.tail hrest]
      · obtain rfl := h'.eq_nil_of_fits hrest hfits
        rw [List.append_nil, ih h.tail h'.tail hrest.symm]

end Full

/-! ## Filling -/

theorem fillFrom_ne_nil : fillFrom width line words ≠ [] := by
  induction words generalizing line with
  | nil => exact List.cons_ne_nil _ _
  | cons word words ih =>
    rw [fillFrom]
    split
    · exact ih
    · exact List.cons_ne_nil _ _

/-- A filled text has a line, even without a word. -/
theorem fill_ne_nil : fill width words ≠ [] := by
  cases words with
  | nil => exact List.cons_ne_nil _ _
  | cons word words => exact fillFrom_ne_nil

/-- On a line that holds a row, more words follow until one does not fit, and the others are in full rows
below it. -/
theorem exists_rows_fillFrom (hwords : ∀ word ∈ words, (lineOf [word]).length ≤ width)
    (hheld : row ≠ []) (hfits : (lineOf row).length ≤ width) :
    ∃ more rows, fillFrom width (lineOf row) words = ((row ++ more) :: rows).map lineOf ∧
      more ++ rows.flatten = words ∧ Full width ((row ++ more) :: rows) := by
  induction words generalizing row with
  | nil =>
    refine ⟨[], [], ?_, rfl, ?_⟩
    · rw [fillFrom, List.append_nil, List.map_singleton]
    · rw [List.append_nil]
      exact Full.nil.cons hheld hfits (by simp)
  | cons word words ih =>
    obtain ⟨hword, hwords⟩ := List.forall_mem_cons.mp hwords
    rw [fillFrom]
    split
    next hroom =>
      rw [← length_lineOf_concat hheld] at hroom
      obtain ⟨more, rows, hlines, hflatten, hfull⟩ := ih hwords (by simp) hroom
      rw [List.append_assoc] at hlines hfull
      refine ⟨word :: more, rows, ?_, ?_, hfull⟩
      · rw [← lineOf_concat hheld, hlines, List.singleton_append]
      · rw [List.cons_append, hflatten]
    next hroom =>
      obtain ⟨more, rows, hlines, hflatten, hfull⟩ := ih hwords (List.cons_ne_nil _ _) hword
      refine ⟨[], (word :: more) :: rows, ?_, ?_, ?_⟩
      · rw [← lineOf_singleton, hlines, List.append_nil, List.map_cons]
        rfl
      · rw [List.nil_append, List.flatten_cons, List.cons_append, hflatten]
      · rw [List.append_nil]
        refine hfull.cons hheld hfits ?_
        -- the word that did not fit comes first below
        rintro _ ⟨⟩ _ ⟨⟩
        exact Nat.lt_of_not_le hroom

theorem exists_rows_fill (hwords : ∀ word ∈ words, (lineOf [word]).length ≤ width) (hne : words ≠ []) :
    ∃ rows, fill width words = rows.map lineOf ∧ rows.flatten = words ∧ Full width rows := by
  obtain ⟨word, words, rfl⟩ := List.exists_cons_of_ne_nil hne
  obtain ⟨hword, hwords⟩ := List.forall_mem_cons.mp hwords
  obtain ⟨more, rows, hlines, hflatten, hfull⟩ :=
    exists_rows_fillFrom hwords (List.cons_ne_nil word []) hword
  refine ⟨_, ?_, ?_, hfull⟩
  · rw [fill, ← lineOf_singleton, hlines]
  · rw [List.flatten_cons, List.append_assoc, hflatten, List.singleton_append]

/-! ## Lists of items -/

/-- A comma follows each item but the last. -/
theorem separate_eq (items : List String) :
    separate items = items.dropLast.map (· ++ ",") ++ items.getLast?.toList := by
  induction items using separate.induct with
  | case1 => rfl
  | case2 item => rfl
  | case3 item next items ih =>
    rw [separate, ih, List.dropLast_cons_cons, List.map_cons, List.getLast?_cons_cons,
      List.cons_append]

theorem length_le_of_mem_separate (h : word ∈ separate items) :
    ∃ item ∈ items, word.length ≤ item.length + 1 := by
  rw [separate_eq] at h
  rcases List.mem_append.mp h with h | h
  · obtain ⟨item, hitem, rfl⟩ := List.mem_map.mp h
    exact ⟨item, List.dropLast_subset _ hitem, (String.length_append item ",").le⟩
  · exact ⟨word, List.mem_of_getLast? (Option.mem_toList.mp h), Nat.le_add_right _ _⟩

/-- The rows of the lines of a list. -/
inductive Wrapped (width : Nat) : (items : List String) → (rows : List (List String)) → Prop
  /-- Without an item there is one line, and no word is on it. -/
  | blank : Wrapped width [] [[]]
  /-- The items are the words of full rows, with a comma after each but the last. -/
  | full {items : List String} {rows : List (List String)} : items ≠ [] →
    rows.flatten = items.dropLast.map (· ++ ",") ++ items.getLast?.toList → Full width rows →
      Wrapped width items rows

/-- A list is filled into lines with these rows, and there are no other rows for it. -/
theorem exists_wrapped_iff
    (hitems : ∀ item ∈ items, indent.length + (item.length + 1) ≤ width) :
    ∃ rows, fill width (separate items) = rows.map lineOf ∧
      ∀ rows', Wrapped width items rows' ↔ rows' = rows := by
  rcases eq_or_ne items [] with rfl | hne
  · refine ⟨[[]], ?_, fun rows' => ⟨?_, ?_⟩⟩
    · rw [separate, fill, List.map_singleton, lineOf_nil]
    · intro h
      cases h with
      | blank => rfl
      | full hne => exact absurd rfl hne
    · rintro rfl
      exact .blank
  · have hwords : ∀ word ∈ separate items, (lineOf [word]).length ≤ width := by
      intro word hword
      obtain ⟨item, hitem, hlength⟩ := length_le_of_mem_separate hword
      rw [lineOf_singleton, String.length_append]
      exact Nat.le_trans (Nat.add_le_add_left hlength _) (hitems item hitem)
    have hwordsne : separate items ≠ [] := by
      rw [separate_eq]
      simp [hne]
    obtain ⟨rows, hlines, hflatten, hfull⟩ := exists_rows_fill hwords hwordsne
    rw [separate_eq] at hflatten
    refine ⟨rows, hlines, fun rows' => ⟨?_, ?_⟩⟩
    · intro h
      cases h with
      | blank => exact absurd rfl hne
      | full _ hflatten' hfull' => exact hfull'.eq_of_flatten_eq hfull (hflatten'.trans hflatten.symm)
    · rintro rfl
      exact .full hne hflatten hfull

end Shorthand.Text
