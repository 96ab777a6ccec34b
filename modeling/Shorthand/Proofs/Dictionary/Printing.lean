import Shorthand.Proofs.Dictionary.Items

/-!
# Dictionaries that are printed

A context and a correction are printed with the separator between them and a blank on either side of it.
Read again, such a line gives the same pair if the texts have nothing that a line could not keep
(`Marks.Keeps`): white space at an end is trimmed, a context with the separator would end there, and one
that starts with the comment mark would be skipped. A correction may have both in it.

## Main statements

- `Dictionary.item_printed`: a printed line holds its pair.
- `Dictionary.numbered_intercalate`: lines are found again, whichever way they end.
- `Dictionary.items_intercalate_printed`: the items of printed pairs.
-/

namespace Shorthand

/-- Whether a dictionary with these marks can hold a pair of a context and a correction. -/
structure Marks.Keeps (marks : Marks) (context correction : String) : Prop where
  context_ne : context ≠ ""
  correction_ne : correction ≠ ""
  trim_context : Text.trim context.toList = context.toList
  trim_correction : Text.trim correction.toList = correction.toList
  context_line : '\n' ∉ context.toList
  correction_line : '\n' ∉ correction.toList
  no_separator : ¬ marks.separator.toList <:+: context.toList
  no_comment : ¬ marks.comment.toList <+: context.toList

/-- The line of a context and a correction. -/
def Marks.printed (marks : Marks) (pair : String × String) : String :=
  pair.1 ++ " " ++ marks.separator ++ " " ++ pair.2

namespace Dictionary

variable {marks : Marks} {context correction ending last : String} {pairs : List (String × String)}

theorem toList_printed (marks : Marks) (context correction : String) :
    (marks.printed (context, correction)).toList =
      context.toList ++ ' ' :: (marks.separator.toList ++ ' ' :: correction.toList) := by
  simp [Marks.printed]

/-! ## One line -/

section

variable (hkeeps : marks.Keeps context correction)
include hkeeps

/-- A printed line has no white space to be trimmed. -/
theorem trim_printed :
    Text.trim (marks.printed (context, correction)).toList =
      (marks.printed (context, correction)).toList := by
  have hcontext : context.toList ≠ [] := by simpa using hkeeps.context_ne
  have hcorrection : correction.toList ≠ [] := by simpa using hkeeps.correction_ne
  obtain ⟨hfirst, -⟩ := Text.trim_eq_self_iff.mp hkeeps.trim_context
  obtain ⟨-, hlast⟩ := Text.trim_eq_self_iff.mp hkeeps.trim_correction
  rw [toList_printed, Text.trim_eq_self_iff]
  constructor
  · rwa [List.head?_append_of_ne_nil _ hcontext]
  · have hend : context.toList ++ ' ' :: (marks.separator.toList ++ ' ' :: correction.toList) =
        context.toList ++ ' ' :: (marks.separator.toList ++ [' ']) ++ correction.toList := by simp
    rwa [hend, List.getLast?_append_of_ne_nil _ hcorrection]

theorem not_isSkipped_printed (hcomment : ∀ c ∈ marks.comment.toList, Text.isBlank c = false) :
    isSkipped marks (marks.printed (context, correction)).toList = false := by
  have hspace : ' ' ∉ marks.comment.toList := fun h =>
    Bool.false_ne_true ((hcomment ' ' h).symm.trans (by decide))
  rw [toList_printed, isSkipped, Bool.or_eq_false_iff]
  constructor
  · simp
  · rw [Bool.eq_false_iff, Ne, List.isPrefixOf_iff_prefix]
    exact fun h => hkeeps.no_comment (Text.isPrefix_of_isPrefix_append_cons h hspace)

variable (hseparator : ∀ c ∈ marks.separator.toList, Text.isBlank c = false)
include hseparator

/-- A line feed would be white space in the separator. -/
theorem not_mem_printed : '\n' ∉ (marks.printed (context, correction)).toList := by
  have hfeed : '\n' ∉ marks.separator.toList := fun h =>
    Bool.false_ne_true ((hseparator '\n' h).symm.trans (by decide))
  rw [toList_printed]
  simp [hkeeps.context_line, hkeeps.correction_line, hfeed]

/-- The first separator on a printed line is the one that was printed. -/
theorem item_printed (hne : marks.separator ≠ "") (line : Nat) :
    item marks line (marks.printed (context, correction)).toList = .ok ⟨line, context, correction⟩ := by
  have hne : marks.separator.toList ≠ [] := by simpa using hne
  have hblank : ∀ c ∈ [' '], Text.isBlank c = true := List.forall_mem_singleton.mpr (by decide)
  have hcontext : Text.trim (context.toList ++ [' ']) = context.toList := by
    rw [Text.trim_append _ hblank, hkeeps.trim_context]
  have hcorrection : Text.trim (' ' :: correction.toList) = correction.toList := by
    have htrim := Text.trim_append_append hblank correction.toList (List.forall_mem_nil _)
    rwa [List.append_nil, hkeeps.trim_correction] at htrim
  rw [toList_printed, item, Text.splitFirst?_append_blank hne hseparator hkeeps.no_separator]
  simp [hcontext, hcorrection, hkeeps.context_ne, hkeeps.correction_ne]

end

/-! ## Many lines -/

/-- The ways in which a line can end: with a line feed, or with a carriage return before one. -/
def IsLineEnding (ending : String) : Prop :=
  ending = "\n" ∨ ending = "\r\n"

namespace IsLineEnding

/-- Before its line feed, a line may end in white space. -/
theorem exists_toList_eq (h : IsLineEnding ending) :
    ∃ blank, ending.toList = blank ++ ['\n'] ∧ '\n' ∉ blank ∧ ∀ c ∈ blank, Text.isBlank c := by
  rcases h with rfl | rfl
  · exact ⟨[], rfl, List.not_mem_nil, List.forall_mem_nil _⟩
  · exact ⟨['\r'], rfl, by decide, List.forall_mem_singleton.mpr (by decide)⟩

/-- A line and what follows, whichever way it ends. -/
theorem numbered_append (h : IsLineEnding ending) {first : Nat} {part : List Char} (hpart : '\n' ∉ part)
    (rest : List Char) :
    numbered marks first (part ++ (ending.toList ++ rest)) =
      numbered marks first part ++ numbered marks (first + 1) rest := by
  obtain ⟨blank, heq, hfeed, hblank⟩ := h.exists_toList_eq
  have hline : '\n' ∉ part ++ blank := by simp [hpart, hfeed]
  rw [heq, List.append_assoc, ← List.append_assoc, List.singleton_append, numbered_append_cons,
    numbered_of_not_mem hline, numbered_of_not_mem hpart, Text.trim_append _ hblank,
    List.count_eq_zero.mpr hline, Nat.add_zero]

end IsLineEnding

/-- Lines that are not skipped are found again, numbered one after the other. -/
theorem numbered_intercalate {parts : List (List Char)} {first : Nat} (hending : IsLineEnding ending)
    (hlast : last = "" ∨ IsLineEnding last)
    (hparts : ∀ part ∈ parts, '\n' ∉ part ∧ Text.trim part = part ∧ isSkipped marks part = false) :
    numbered marks first (ending.toList.intercalate parts ++ last.toList) = parts.zipIdx first := by
  have hend {first : Nat} {part : List Char} (hpart : '\n' ∉ part) :
      numbered marks first (part ++ last.toList) = numbered marks first part := by
    rcases hlast with rfl | hlast
    · rw [String.toList_empty, List.append_nil]
    · rw [← List.append_nil last.toList, hlast.numbered_append hpart, numbered_nil, List.append_nil]
  have hone {first : Nat} {part : List Char} (hpart : '\n' ∉ part) (htrim : Text.trim part = part)
      (hcontent : isSkipped marks part = false) : numbered marks first part = [(part, first)] := by
    rw [numbered_of_not_mem hpart, htrim, hcontent]
    rfl
  induction parts generalizing first with
  | nil => exact (hend List.not_mem_nil).trans (numbered_nil marks first)
  | cons part parts ih =>
    obtain ⟨⟨hpart, htrim, hcontent⟩, hparts⟩ := List.forall_mem_cons.mp hparts
    cases parts with
    | nil => rw [List.intercalate_singleton, hend hpart, hone hpart htrim hcontent, List.zipIdx_singleton]
    | cons part' parts =>
      rw [List.intercalate_cons_cons, List.append_assoc, List.append_assoc,
        hending.numbered_append hpart, hone hpart htrim hcontent, ih hparts]
      rfl

/-- Printed on lines of their own, pairs are read again as they are, each on its line. -/
theorem items_intercalate_printed (hne : marks.separator ≠ "")
    (hseparator : ∀ c ∈ marks.separator.toList, Text.isBlank c = false)
    (hcomment : ∀ c ∈ marks.comment.toList, Text.isBlank c = false)
    (hkeeps : ∀ pair ∈ pairs, marks.Keeps pair.1 pair.2) (hending : IsLineEnding ending)
    (hlast : last = "" ∨ IsLineEnding last) :
    items marks (ending.intercalate (pairs.map marks.printed) ++ last) =
      (pairs.zipIdx 1).map fun ((context, correction), line) => .ok ⟨line, context, correction⟩ := by
  have hparts : ∀ part ∈ pairs.map fun pair => (marks.printed pair).toList,
      '\n' ∉ part ∧ Text.trim part = part ∧ isSkipped marks part = false := by
    intro part hpart
    obtain ⟨pair, hpair, rfl⟩ := List.mem_map.mp hpart
    have hpair := hkeeps pair hpair
    exact ⟨not_mem_printed hpair hseparator, trim_printed hpair, not_isSkipped_printed hpair hcomment⟩
  have htext : (ending.intercalate (pairs.map marks.printed) ++ last).toList =
      ending.toList.intercalate (pairs.map fun pair => (marks.printed pair).toList) ++ last.toList := by
    simp [Function.comp_def]
  rw [items_eq, htext, numbered_intercalate hending hlast hparts, List.zipIdx_map, List.map_map]
  refine List.map_congr_left fun (pair, line) hmem => ?_
  exact item_printed (hkeeps pair (List.fst_mem_of_mem_zipIdx hmem)) hseparator hne line

/-- A context may have blanks and carriage returns in it, and a correction the marks. -/
theorem items_intercalate_printed_two_pairs :
    ∃ (marks : Marks) (text : String), marks = ⟨"->", "//"⟩ ∧
      text = "a b -> -> //\r\nc\rd -> x\ty\n" ∧
      items marks text = [.ok ⟨1, "a b", "-> //"⟩, .ok ⟨2, "c\rd", "x\ty"⟩] := by
  obtain ⟨marks, hmarks, hne, hseparator, hcomment⟩ : ∃ marks : Marks, marks = ⟨"->", "//"⟩ ∧
      marks.separator ≠ "" ∧ (∀ c ∈ marks.separator.toList, Text.isBlank c = false) ∧
      ∀ c ∈ marks.comment.toList, Text.isBlank c = false :=
    ⟨_, rfl, by decide, List.forall_mem_cons.mpr ⟨rfl, List.forall_mem_singleton.mpr rfl⟩,
      List.forall_mem_cons.mpr ⟨rfl, List.forall_mem_singleton.mpr rfl⟩⟩
  have hfirst : marks.Keeps "a b" "-> //" := by
    rw [hmarks]
    exact ⟨by decide, by decide, rfl, rfl, by decide, by decide, by decide, by decide⟩
  have hsecond : marks.Keeps "c\rd" "x\ty" := by
    rw [hmarks]
    exact ⟨by decide, by decide, rfl, rfl, by decide, by decide, by decide, by decide⟩
  have hkeeps : ∀ pair ∈ [("a b", "-> //"), ("c\rd", "x\ty")], marks.Keeps pair.1 pair.2 :=
    List.forall_mem_cons.mpr ⟨hfirst, List.forall_mem_singleton.mpr hsecond⟩
  refine ⟨marks, _, hmarks, ?_,
    items_intercalate_printed hne hseparator hcomment hkeeps (.inr rfl) (.inr (.inl rfl))⟩
  rw [hmarks]
  rfl

end Dictionary

end Shorthand
