import Shorthand.Text.Lines
import Mathlib.Data.List.Induction
import Mathlib.Data.List.TakeWhile

/-!
# Characters of lines and their parts

Lines have no line feed, and neither trimming nor the separator brings one in. Conversely, a text whose
lines each end with a line feed is split into these lines.

Trimmed, the lines of a text are the parts between its line feeds, whether or not they ended with a
carriage return and whether or not the text ended with a line feed.
-/

namespace Shorthand.Text

variable {text line before after blank word : List Char} {c : Char}

/-- Splitting undoes the ending of lines, with an empty text after the last one. -/
theorem splitOn_flatMap {lines : List (List Char)} (h : ∀ line ∈ lines, '\n' ∉ line) :
    (lines.flatMap (· ++ ['\n'])).splitOn '\n' = lines ++ [[]] := by
  induction lines with
  | nil => rfl
  | cons line lines ih =>
    obtain ⟨hline, hlines⟩ := List.forall_mem_cons.mp h
    rw [List.flatMap_cons, List.append_assoc, List.singleton_append,
      List.splitOn_append_cons_self_of_not_mem hline, ih hlines, List.cons_append]

/-! ## Trimming -/

theorem mem_of_mem_trim (h : c ∈ trim text) : c ∈ text := by
  have hmem : c ∈ (text.dropWhile isBlank).reverse :=
    (List.dropWhile_suffix _).subset (List.mem_reverse.mp h)
  exact (List.dropWhile_suffix _).subset (List.mem_reverse.mp hmem)

theorem trim_blank (h : ∀ c ∈ blank, isBlank c) : trim blank = [] := by
  rw [trim, List.dropWhile_eq_nil_iff.mpr h]
  rfl

/-- White space goes from the front of a text without any. -/
theorem dropWhile_isBlank (hblank : ∀ c ∈ blank, isBlank c) (hword : ∀ c ∈ word, isBlank c = false)
    (hne : word ≠ []) : (blank ++ (word ++ after)).dropWhile isBlank = word ++ after := by
  obtain ⟨c, rest, rfl⟩ := List.exists_cons_of_ne_nil hne
  have hc : ¬ isBlank c := by simpa using hword c (List.mem_cons_self ..)
  rw [List.dropWhile_append_of_pos hblank, List.cons_append, List.dropWhile_cons_of_neg hc]

/-- A text without white space remains of one with white space around it. -/
theorem trim_eq (hbefore : ∀ c ∈ before, isBlank c) (hword : ∀ c ∈ word, isBlank c = false)
    (hne : word ≠ []) (hafter : ∀ c ∈ after, isBlank c) :
    trim (before ++ (word ++ after)) = word := by
  have hback : (after.reverse ++ (word.reverse ++ [])).dropWhile isBlank = word.reverse ++ [] :=
    dropWhile_isBlank (by simpa using hafter) (by simpa using hword) (by simpa using hne)
  rw [List.append_nil] at hback
  rw [trim, dropWhile_isBlank hbefore hword hne, List.reverse_append, hback, List.reverse_reverse]

/-- White space around a text makes no difference. -/
theorem trim_append_append (hbefore : ∀ c ∈ before, isBlank c) (text : List Char)
    (hafter : ∀ c ∈ after, isBlank c) : trim (before ++ (text ++ after)) = trim text := by
  rw [trim, trim, List.dropWhile_append_of_pos hbefore, List.dropWhile_append]
  split
  next hnil =>
    rw [List.isEmpty_iff.mp hnil, List.dropWhile_eq_nil_iff.mpr hafter]
  next =>
    rw [List.reverse_append, List.dropWhile_append_of_pos (by simpa using hafter)]

theorem trim_append (text : List Char) (hafter : ∀ c ∈ after, isBlank c) :
    trim (text ++ after) = trim text :=
  trim_append_append (List.forall_mem_nil _) text hafter

/-- A text stays as it is if white space neither begins nor ends it. -/
theorem trim_eq_self_iff :
    trim text = text ↔ (∀ c ∈ text.head?, isBlank c = false) ∧ ∀ c ∈ text.getLast?, isBlank c = false := by
  constructor
  · intro h
    constructor
    · intro c hc
      obtain ⟨rest, rfl⟩ := List.head?_eq_some_iff.mp hc
      by_contra hblank
      -- a text without its first character is shorter
      have hlength := congrArg List.length h
      rw [trim, List.dropWhile_cons_of_pos (by simpa using hblank), List.length_reverse] at hlength
      have hback := (List.dropWhile_suffix (l := (rest.dropWhile isBlank).reverse) isBlank).length_le
      have hfront := (List.dropWhile_suffix (l := rest) isBlank).length_le
      rw [List.length_reverse] at hback
      rw [List.length_cons] at hlength
      omega
    · intro c hc
      rw [← h, trim, List.getLast?_reverse] at hc
      have hlast := List.head?_dropWhile_not isBlank (text.dropWhile isBlank).reverse
      rw [Option.mem_def.mp hc] at hlast
      exact hlast
  · rintro ⟨hfirst, hlast⟩
    have hfront : text.dropWhile isBlank = text := by
      cases text with
      | nil => rfl
      | cons c rest => exact List.dropWhile_cons_of_neg (by simp [hfirst c rfl])
    have hback : text.reverse.dropWhile isBlank = text.reverse := by
      rw [← List.head?_reverse] at hlast
      cases hreverse : text.reverse with
      | nil => rfl
      | cons c rest =>
        rw [hreverse] at hlast
        exact List.dropWhile_cons_of_neg (by simp [hlast c rfl])
    rw [trim, hfront, hback, List.reverse_reverse]

/-! ## Lines and parts -/

/-- Whether a line starts right after a text. -/
def AtLineStart (before : List Char) : Prop := ∀ c ∈ before.getLast?, c = '\n'

/-- Whether a line ends right before a text. -/
def AtLineEnd (after : List Char) : Prop := ∀ c ∈ after.head?, c = '\n'

instance (before : List Char) : Decidable (AtLineStart before) := Option.decidableForallMem before.getLast?

instance (after : List Char) : Decidable (AtLineEnd after) := Option.decidableForallMem after.head?

theorem atLineStart_iff : AtLineStart before ↔ before = [] ∨ ∃ front, before = front ++ ['\n'] := by
  rcases List.eq_nil_or_concat before with rfl | ⟨front, c, rfl⟩
  · simp [AtLineStart]
  · simp [AtLineStart]

theorem atLineEnd_iff : AtLineEnd after ↔ after = [] ∨ ∃ back, after = '\n' :: back := by
  cases after <;> simp [AtLineEnd]

/-- A text ends within a line, or at the start of one. -/
theorem exists_eq_append_line (text : List Char) :
    ∃ front line, text = front ++ line ∧ AtLineStart front ∧ '\n' ∉ line := by
  induction text using List.reverseRecOn with
  | nil => exact ⟨[], [], rfl, atLineStart_iff.mpr (.inl rfl), List.not_mem_nil⟩
  | append_singleton text c ih =>
    obtain ⟨front, line, rfl, hfront, hline⟩ := ih
    by_cases hc : c = '\n'
    · refine ⟨front ++ line ++ [c], [], (List.append_nil _).symm, ?_, List.not_mem_nil⟩
      exact atLineStart_iff.mpr (.inr ⟨_, by rw [hc]⟩)
    · refine ⟨front, line ++ [c], List.append_assoc .., hfront, ?_⟩
      simpa [eq_comm] using And.intro hline hc

theorem length_splitOn (text : List Char) : (text.splitOn '\n').length = text.count '\n' + 1 := by
  induction text with
  | nil => rfl
  | cons c text ih =>
    rw [List.splitOn_cons_eq_if_modifyHead, List.count_cons]
    split
    next => rw [List.length_cons, ih]
    next => rw [List.length_modifyHead, ih, Nat.add_zero]

theorem mem_of_mem_dropReturn (h : c ∈ dropReturn line) : c ∈ line := by
  unfold dropReturn at h
  split at h
  · exact List.mem_cons_of_mem _ h
  · exact h

/-- No line has a line feed. -/
theorem not_mem_of_mem_lines (h : line ∈ lines text) : '\n' ∉ line := by
  suffices hgo : ∀ (rest begun : List Char), '\n' ∉ begun → line ∈ lines.go rest begun →
      '\n' ∉ line from hgo text [] List.not_mem_nil h
  -- what is begun is kept backwards
  intro rest begun hbegun hmem
  induction rest generalizing begun with
  | nil =>
    cases begun with
    | nil => cases hmem
    | cons c begun =>
      rw [List.mem_singleton.mp hmem]
      exact fun h => hbegun (List.mem_reverse.mp h)
  | cons c rest ih =>
    rw [lines.go] at hmem
    split at hmem
    next =>
      rcases List.mem_cons.mp hmem with rfl | hmem
      · exact fun h => hbegun (mem_of_mem_dropReturn (List.mem_reverse.mp h))
      · exact ih [] List.not_mem_nil hmem
    next hc =>
      apply ih (c :: begun) _ hmem
      simpa [eq_comm] using And.intro hc hbegun

theorem trim_reverse_dropReturn (line : List Char) : trim (dropReturn line).reverse = trim line.reverse := by
  unfold dropReturn
  split
  next line =>
    rw [List.reverse_cons, trim_append _ (List.forall_mem_singleton.mpr (by decide))]
  next => rfl

/-- Between the line feeds of a text are its lines, up to white space. There is one part more if the
text ends with a line feed or is empty. -/
theorem map_trim_splitOn (text : List Char) :
    (text.splitOn '\n').map trim = (lines text).map trim ∨
      (text.splitOn '\n').map trim = (lines text).map trim ++ [[]] := by
  suffices hgo : ∀ rest begun : List Char, '\n' ∉ begun →
      ((begun.reverse ++ rest).splitOn '\n').map trim = (lines.go rest begun).map trim ∨
        ((begun.reverse ++ rest).splitOn '\n').map trim = (lines.go rest begun).map trim ++ [[]] from
    hgo text [] List.not_mem_nil
  intro rest begun hbegun
  induction rest generalizing begun with
  | nil =>
    have hsplit : (begun.reverse ++ []).splitOn '\n' = [begun.reverse] := by
      rw [List.append_nil]
      exact List.splitOn_eq_singleton (by simpa using hbegun)
    rw [hsplit]
    cases begun with
    | nil => exact .inr rfl
    | cons c begun => exact .inl rfl
  | cons c rest ih =>
    rw [lines.go]
    split
    next hfeed =>
      rw [hfeed, List.splitOn_append_cons_self_of_not_mem (by simpa using hbegun)]
      simpa [trim_reverse_dropReturn] using ih [] List.not_mem_nil
    next hc =>
      have hbegun' : '\n' ∉ c :: begun := by simpa [eq_comm] using And.intro hc hbegun
      simpa using ih (c :: begun) hbegun'

/-- The parts of a text have only characters of it. -/
theorem subset_of_splitFirst? {separator : List Char}
    (h : splitFirst? separator text = some (before, after)) : before ⊆ text ∧ after ⊆ text := by
  suffices hgo : ∀ rest passed : List Char,
      splitFirst?.go separator rest passed = some (before, after) →
        before ⊆ passed.reverse ++ rest ∧ after ⊆ passed.reverse ++ rest from hgo text [] h
  intro rest passed hsplit
  induction rest generalizing passed with
  | nil =>
    rw [splitFirst?.go] at hsplit
    split at hsplit
    · cases hsplit
      exact ⟨List.subset_append_left .., List.nil_subset _⟩
    · cases hsplit
  | cons c rest ih =>
    rw [splitFirst?.go] at hsplit
    split at hsplit
    · cases hsplit
      exact ⟨List.subset_append_left ..,
        List.subset_append_of_subset_right _ (List.drop_subset _ _)⟩
    · simpa using ih (c :: passed) hsplit

/-- A text that begins another one and lacks a character of it ends before that character. -/
theorem isPrefix_of_isPrefix_append_cons (h : word <+: before ++ c :: after) (hc : c ∉ word) :
    word <+: before := by
  rcases List.prefix_or_prefix_of_prefix h (List.prefix_append before _) with hword | ⟨rest, rfl⟩
  · exact hword
  · rw [List.prefix_append_right_inj] at h
    cases rest with
    | nil => simp
    | cons d rest =>
      obtain ⟨rfl, -⟩ := List.cons_prefix_cons.mp h
      exact absurd (List.mem_append_right _ (List.mem_cons_self ..)) hc

/-- A separator without blanks is found behind the blank that stands before it, if it does not occur
earlier. No occurrence can reach over the blank. -/
theorem splitFirst?_append_blank {separator : List Char} (hne : separator ≠ [])
    (hblank : ∀ c ∈ separator, isBlank c = false) (hbefore : ¬ separator <:+: before) :
    splitFirst? separator (before ++ ' ' :: (separator ++ after)) = some (before ++ [' '], after) := by
  have hspace : ' ' ∉ separator := fun h => Bool.false_ne_true ((hblank ' ' h).symm.trans (by decide))
  suffices hgo : ∀ passed : List Char,
      splitFirst?.go separator (before ++ ' ' :: (separator ++ after)) passed =
        some (passed.reverse ++ before ++ [' '], after) from hgo []
  intro passed
  induction before generalizing passed with
  | nil =>
    have hfirst : ¬ separator <+: ' ' :: (separator ++ after) := fun h =>
      hne (List.prefix_nil.mp (isPrefix_of_isPrefix_append_cons h hspace))
    rw [List.nil_append, splitFirst?.go, if_neg (by simpa using hfirst)]
    obtain ⟨c, rest, rfl⟩ := List.exists_cons_of_ne_nil hne
    rw [List.cons_append, splitFirst?.go, if_pos (by simp)]
    simp
  | cons c before ih =>
    have hfirst : ¬ separator <+: c :: before ++ ' ' :: (separator ++ after) := fun h =>
      hbefore (isPrefix_of_isPrefix_append_cons h hspace).isInfix
    rw [List.cons_append] at hfirst
    rw [List.cons_append, splitFirst?.go, if_neg (by simpa using hfirst),
      ih fun h => hbefore (h.trans (List.suffix_cons ..).isInfix)]
    simp

end Shorthand.Text
