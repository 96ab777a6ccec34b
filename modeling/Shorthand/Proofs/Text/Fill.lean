import Shorthand.Proofs.Text.Lines
import Shorthand.Text.Fill

/-!
# Filled lines hold their words

Wherever the lines of a filled text are broken, the text has the words one after the other with white space
before each of them (`spread_fill`). So where the words are the items of a list with commas, splitting at
the commas and trimming gives the items back (`splitOn_of_spread_separate`).
-/

namespace Shorthand.Text

variable {width : Nat} {word line : String} {words items : List String} {text : List Char} {c : Char}

/-! ## Characters of filled lines -/

/-- What holds of the beginning of a line, and is kept as words are added to it, holds of every line. -/
theorem forall_mem_fillFrom {P : String → Prop} (hline : P line)
    (hnew : ∀ word ∈ words, P (indent ++ word))
    (hadd : ∀ line, ∀ word ∈ words, P line → P (line ++ " " ++ word)) :
    ∀ l ∈ fillFrom width line words, P l := by
  induction words generalizing line with
  | nil => simpa [fillFrom] using hline
  | cons word words ih =>
    obtain ⟨hfirst, hnew⟩ := List.forall_mem_cons.mp hnew
    have hrest (line : String) (w : String) (hw : w ∈ words) : P line → P (line ++ " " ++ w) :=
      hadd line w (List.mem_cons_of_mem _ hw)
    rw [fillFrom]
    split
    · exact ih (hadd line word (List.mem_cons_self ..) hline) hnew hrest
    · exact List.forall_mem_cons.mpr ⟨hline, ih hfirst hnew hrest⟩

theorem forall_mem_fill {P : String → Prop} (hindent : P indent)
    (hnew : ∀ word ∈ words, P (indent ++ word))
    (hadd : ∀ line, ∀ word ∈ words, P line → P (line ++ " " ++ word)) :
    ∀ l ∈ fill width words, P l := by
  cases words with
  | nil => simpa [fill] using hindent
  | cons word words =>
    obtain ⟨hfirst, hnew⟩ := List.forall_mem_cons.mp hnew
    exact forall_mem_fillFrom hfirst hnew fun line w hw =>
      hadd line w (List.mem_cons_of_mem _ hw)

/-- Every line is indented. -/
theorem indent_prefix_of_mem_fill (h : line ∈ fill width words) :
    indent.toList <+: line.toList := by
  refine forall_mem_fill (P := fun line => indent.toList <+: line.toList) (List.prefix_refl _)
    (fun word _ => ?_) (fun line word _ hline => ?_) line h
  · simp
  · simpa using hline.trans (List.prefix_append ..)

/-- A line has the characters of words, and spaces. -/
theorem mem_of_mem_fill (h : line ∈ fill width words) (hc : c ∈ line.toList) :
    c = ' ' ∨ ∃ word ∈ words, c ∈ word.toList := by
  have hindent : ∀ c ∈ indent.toList, c = ' ' := by simp [indent]
  refine forall_mem_fill
    (P := fun line => ∀ c ∈ line.toList, c = ' ' ∨ ∃ word ∈ words, c ∈ word.toList)
    (fun c hc => .inl (hindent c hc)) (fun word hword c hc => ?_)
    (fun line word hword hline c hc => ?_) line h c hc
  · rw [String.toList_append] at hc
    exact (List.mem_append.mp hc).imp (hindent c) fun hc => ⟨word, hword, hc⟩
  · simp only [String.toList_append, List.mem_append] at hc
    rcases hc with (hc | hc) | hc
    · exact hline c hc
    · exact .inl (List.mem_singleton.mp hc)
    · exact .inr ⟨word, hword, hc⟩

/-- The words of a list have the characters of its items, and commas. -/
theorem mem_of_mem_separate (h : word ∈ separate items) (hc : c ∈ word.toList) :
    c = ',' ∨ ∃ item ∈ items, c ∈ item.toList := by
  induction items using separate.induct with
  | case1 => cases h
  | case2 item =>
    rw [separate, List.mem_singleton] at h
    exact .inr ⟨item, List.mem_cons_self .., h ▸ hc⟩
  | case3 item next items ih =>
    rcases List.mem_cons.mp h with rfl | h
    · rw [String.toList_append] at hc
      rcases List.mem_append.mp hc with hc | hc
      · exact .inr ⟨item, List.mem_cons_self .., hc⟩
      · exact .inl (List.mem_singleton.mp hc)
    · refine (ih h).imp_right fun ⟨item, hitem, hc⟩ => ?_
      exact ⟨item, List.mem_cons_of_mem _ hitem, hc⟩

/-! ## Words with white space between them -/

/-- A text that has these words one after the other, with white space before each and after the last. -/
inductive Spread : (words : List String) → (text : List Char) → Prop
  | nil {blank : List Char} : (∀ c ∈ blank, isBlank c) → Spread [] blank
  | cons {blank text : List Char} {word : String} {words : List String} :
    (∀ c ∈ blank, isBlank c) → Spread words text →
      Spread (word :: words) (blank ++ (word.toList ++ text))

/-- White space in front goes with the first word. -/
theorem Spread.blank {blank : List Char} (h : Spread words text) (hblank : ∀ c ∈ blank, isBlank c) :
    Spread words (blank ++ text) := by
  cases h with
  | nil htext => exact .nil (List.forall_mem_append.mpr ⟨hblank, htext⟩)
  | cons hgap h =>
    rw [← List.append_assoc]
    exact .cons (List.forall_mem_append.mpr ⟨hblank, hgap⟩) h

/-- The lines of a text as one, each with its line feed. -/
def joined (lines : List String) : List Char :=
  lines.flatMap (·.toList ++ ['\n'])

/-- Behind a line that is begun, the words follow one after the other. -/
theorem exists_spread_fillFrom (width : Nat) (line : String) (words : List String) :
    ∃ text, joined (fillFrom width line words) = line.toList ++ text ∧ Spread words text := by
  induction words generalizing line with
  | nil => exact ⟨['\n'], by simp [joined, fillFrom], .nil (List.all_eq_true.mp rfl)⟩
  | cons word words ih =>
    rw [fillFrom]
    split
    next =>
      obtain ⟨text, htext, hspread⟩ := ih (line ++ " " ++ word)
      refine ⟨[' '] ++ (word.toList ++ text), ?_, .cons (List.all_eq_true.mp rfl) hspread⟩
      rw [htext]
      simp
    next =>
      obtain ⟨text, htext, hspread⟩ := ih (indent ++ word)
      refine ⟨('\n' :: indent.toList) ++ (word.toList ++ text), ?_,
        .cons (List.all_eq_true.mp rfl) hspread⟩
      rw [joined, List.flatMap_cons, ← joined, htext]
      simp

/-- A filled text has its words one after the other. -/
theorem spread_fill (width : Nat) (words : List String) :
    Spread words (joined (fill width words)) := by
  have hindent : ∀ c ∈ indent.toList, isBlank c := List.all_eq_true.mp rfl
  cases words with
  | nil =>
    have hline : joined (fill width []) = indent.toList ++ ['\n'] := by simp [joined, fill]
    rw [hline]
    exact .nil (List.all_eq_true.mp rfl)
  | cons word words =>
    obtain ⟨text, htext, hspread⟩ := exists_spread_fillFrom width (indent ++ word) words
    rw [fill, htext, String.toList_append, List.append_assoc]
    exact .cons hindent hspread

/-- A list that is spread over a text is read back by splitting at the commas. -/
theorem splitOn_of_spread_separate (h : Spread (separate items) text) (hne : items ≠ [])
    (hitems : ∀ item ∈ items, item.toList ≠ [] ∧ ',' ∉ item.toList ∧
      ∀ c ∈ item.toList, isBlank c = false) :
    (text.splitOn ',').map trim = items.map String.toList := by
  have hcomma {blank : List Char} (hblank : ∀ c ∈ blank, isBlank c) : ',' ∉ blank :=
    fun hmem => absurd (hblank _ hmem) (by decide)
  induction items using separate.induct generalizing text with
  | case1 => exact absurd rfl hne
  | case2 item =>
    obtain ⟨hitem, hfree, hword⟩ := hitems item (List.mem_cons_self ..)
    rw [separate] at h
    cases h with
    | cons hgap hrest =>
      cases hrest with
      | nil hblank =>
        rw [List.splitOn_eq_singleton (by simp [hcomma hgap, hfree, hcomma hblank]), List.map_singleton,
          trim_eq hgap hword hitem hblank, List.map_singleton]
  | case3 item next items ih =>
    obtain ⟨⟨hitem, hfree, hword⟩, hitems⟩ := List.forall_mem_cons.mp hitems
    rw [separate] at h
    cases h with
    | @cons gap rest _ _ hgap hrest =>
      have hsplit : gap ++ ((item ++ ",").toList ++ rest) = (gap ++ item.toList) ++ ',' :: rest := by
        simp
      have htrim : trim (gap ++ item.toList) = item.toList := by
        simpa using trim_eq hgap hword hitem (List.forall_mem_nil _)
      rw [hsplit, List.splitOn_append_cons_self_of_not_mem (by simp [hcomma hgap, hfree]),
        List.map_cons, htrim, ih hrest (List.cons_ne_nil _ _) hitems]
      rfl

end Shorthand.Text
