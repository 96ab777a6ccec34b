import Shorthand.Proofs.Header
import Shorthand.Proofs.Text.Rows

/-!
# The arrays of a header

A header ends with its two arrays, the table and the outputs. Their literals have a fixed size, so each of
them fits on a line, and the lines of an array are as full as its width allows.

The outputs of a dictionary may all be empty. Then their array has no literals, but there is a line for it
all the same, which no other array has.

## Main statements

- `Artifact.arrays_wrapped`: which literals stand on which lines.
- `Artifact.empty_array_has_line`: a dictionary with an array that has no literals.
-/

namespace Shorthand

namespace Artifact

variable {a : Artifact} {declaration : String} {width : Nat} {lines literals : List String}
  {rows tableRows poolRows : List (List String)}

/-! ## Texts of arrays -/

/-- The literals of the table. -/
def tableLiterals (a : Artifact) : List String :=
  a.table.toList.map fun word => Text.Hex.literal 4 word.toNat

/-- The literals of the outputs. -/
def poolLiterals (a : Artifact) : List String :=
  a.pool.toList.map fun byte => Text.Hex.literal 2 byte.toNat

/-- The text of an array with these rows of words between its braces. -/
def arrayText (declaration : String) (rows : List (List String)) : String :=
  "static const " ++ declaration ++ " PROGMEM = \x7b" ++ "\n" ++
    "\n".intercalate (rows.map Text.lineOf) ++ "\n" ++ "\x7d;\n"

/-- The array of the table, with these rows. -/
def tableText (rows : List (List String)) : String :=
  arrayText "uint16_t sequence_transform_data[DICTIONARY_SIZE]" rows

/-- The array of the outputs, with these rows. -/
def poolText (rows : List (List String)) : String :=
  arrayText "uint8_t sequence_transform_completions_data[COMPLETIONS_SIZE]" rows

/-- Line feeds after all lines are line feeds between them, and one at the end. -/
theorem join_lines (hne : lines ≠ []) :
    String.join (lines.map (· ++ "\n")) = "\n".intercalate lines ++ "\n" := by
  induction lines with
  | nil => exact absurd rfl hne
  | cons line lines ih =>
    rw [List.map_cons, String.join_cons]
    rcases eq_or_ne lines [] with rfl | hlines
    · rw [List.map_nil, String.join_nil, String.append_empty, String.intercalate_singleton]
    · rw [ih hlines, String.intercalate_cons_of_ne_nil hlines]
      simp only [String.append_assoc]

/-- The text of an array whose lines hold these rows. -/
theorem join_arrayLines
    (h : Text.fill width (Text.separate literals) = rows.map Text.lineOf) :
    String.join ((arrayLines declaration width literals).map (· ++ "\n")) =
      arrayText declaration rows := by
  have hlines : rows.map Text.lineOf ≠ [] := h ▸ Text.fill_ne_nil
  have hlast : String.join (["\x7d;"].map (· ++ "\n")) = "\x7d;\n" := rfl
  rw [arrayLines, h, List.map_cons, String.join_cons, List.map_append, String.join_append,
    join_lines hlines, hlast]
  show "static const " ++ declaration ++ " PROGMEM = \x7b" ++ "\n" ++ _ =
    "static const " ++ declaration ++ " PROGMEM = \x7b" ++ "\n" ++ _ ++ "\n" ++ "\x7d;\n"
  simp only [String.append_assoc]

/-- A header ends with its arrays. -/
theorem exists_header_eq
    (htable : Text.fill tableWidth (Text.separate a.tableLiterals) = tableRows.map Text.lineOf)
    (hpool : Text.fill poolWidth (Text.separate a.poolLiterals) = poolRows.map Text.lineOf) :
    ∃ before, a.header = before ++ tableText tableRows ++ "\n" ++ poolText poolRows := by
  obtain ⟨front, hfront⟩ : ∃ front, a.headerLines = front ++ a.tableCode ++ "" :: a.poolCode :=
    ⟨_, rfl⟩
  have htableText : String.join (a.tableCode.map (· ++ "\n")) = tableText tableRows :=
    join_arrayLines htable
  have hpoolText : String.join (a.poolCode.map (· ++ "\n")) = poolText poolRows :=
    join_arrayLines hpool
  refine ⟨String.join (front.map (· ++ "\n")), ?_⟩
  rw [header, hfront, List.map_append, List.map_append, List.map_cons, String.join_append,
    String.join_append, String.join_cons, htableText, hpoolText, String.empty_append]
  simp only [String.append_assoc]

/-! ## Rows of arrays -/

/-- Literals that fit on a line with a comma are filled into lines. The rows of these are the only ones. -/
theorem exists_wrapped_literals {α : Type} (width digits : Nat) (values : List α) (value : α → Nat)
    (hwidth : Text.indent.length + (digits + 2 + 1) ≤ width) :
    ∃ rows, Text.fill width (Text.separate (values.map fun v => Text.Hex.literal digits (value v))) =
        rows.map Text.lineOf ∧
      ∀ rows', Text.Wrapped width (values.map fun v => Text.Hex.literal digits (value v)) rows' ↔
        rows' = rows := by
  apply Text.exists_wrapped_iff
  intro item hitem
  obtain ⟨v, -, rfl⟩ := List.mem_map.mp hitem
  rwa [Text.Hex.length_literal]

/-- The two arrays of a header hold the literals of the table and of the outputs in order, with a comma
after each but the last of an array. Every line is indented and has one literal or more, with a space between
two of them, except for the one line of an array without literals. No line is wider than the array may be,
and wherever a line ends, the next literal with its comma would have made it wider. There are no other rows
of which all this is true. -/
theorem arrays_wrapped (a : Artifact) :
    ∃ before tableRows poolRows,
      a.header = before ++ tableText tableRows ++ "\n" ++ poolText poolRows ∧
      (∀ rows, Text.Wrapped tableWidth a.tableLiterals rows ↔ rows = tableRows) ∧
      ∀ rows, Text.Wrapped poolWidth a.poolLiterals rows ↔ rows = poolRows := by
  obtain ⟨tableRows, htable, hrows⟩ :=
    exists_wrapped_literals tableWidth 4 a.table.toList UInt16.toNat (by decide)
  obtain ⟨poolRows, hpool, hrows'⟩ :=
    exists_wrapped_literals poolWidth 2 a.pool.toList UInt8.toNat (by decide)
  obtain ⟨before, hheader⟩ := exists_header_eq htable hpool
  exact ⟨before, tableRows, poolRows, hheader, hrows, hrows'⟩

/-! ## An array without literals -/

/-- A line without a word can be told from no line. -/
theorem append_poolText_nil_ne (before before' : String) :
    before ++ poolText [[]] ≠ before' ++ poolText [] := by
  obtain ⟨front, hfront⟩ : ∃ front, ∀ rows, poolText rows =
      front ++ "\n" ++ "\n".intercalate (rows.map Text.lineOf) ++ "\n" ++ "\x7d;\n" :=
    ⟨_, fun _ => rfl⟩
  rw [hfront, hfront, List.map_singleton, Text.lineOf_nil, String.intercalate_singleton, List.map_nil,
    String.intercalate_nil]
  intro h
  have h := congrArg String.toList h
  simp only [String.toList_append, ← List.append_assoc] at h
  -- the same is behind the lines, and before them a line feed
  have hlast := congrArg List.getLast? (List.append_cancel_right (List.append_cancel_right h))
  simp [Text.indent] at hlast

/-- Where there are no outputs to write, the array of the outputs is one line with nothing on it. -/
theorem exists_header_eq_of_nil (h : a.poolLiterals = []) :
    ∃ before, a.header = before ++ poolText [[]] := by
  have hblank : Text.fill poolWidth (Text.separate a.poolLiterals) = [[]].map Text.lineOf := by
    rw [h, List.map_singleton, Text.lineOf_nil]
    rfl
  obtain ⟨tableRows, htable, -⟩ :=
    exists_wrapped_literals tableWidth 4 a.table.toList UInt16.toNat (by decide)
  obtain ⟨before, hheader⟩ := exists_header_eq htable hblank
  exact ⟨_, hheader⟩

/-- What this rule writes is what its context leaves on screen, so its output is empty. -/
theorem exists_artifact_no_output :
    ∃ alphabet artifact, alphabet = ⟨['@'], ['%'], ':', by decide, by decide⟩ ∧
      (ofRules alphabet [⟨1, "ab", "a"⟩]).result = .ok artifact ∧ artifact.poolLiterals = [] := by
  obtain ⟨m, goal, hrules, hgoals, hrun, hspan⟩ :
      ∃ m goal, Matcher.ofRules ⟨['@'], ['%'], ':', by decide, by decide⟩ [⟨1, "ab", "a"⟩] = .ok m ∧
        m.goals = [goal] ∧ (m.evaluateUpTo 1 goal).run = some (.ok ⟨0, 0, ""⟩) ∧
        Table.span (m.edits [⟨0, 0, ""⟩]).entries ≤ Table.maxSize :=
    ⟨_, _, rfl, rfl, rfl, by decide⟩
  have hwf := Matcher.wellFormed_of_ofRules hrules
  have hfresh : List.Forall₂ (fun goal edit => m.fresh goal = .ok edit) m.goals [⟨0, 0, ""⟩] := by
    rw [hgoals]
    exact .cons ((hwf.fresh_eq_ok_iff (by simp [hgoals])).mpr ⟨1, hrun⟩) .nil
  obtain ⟨artifact, hartifact, -, hpool⟩ := exists_ofRules (by simp) hrules hfresh
    (by decide : ∀ output ∈ [""], Pool.isAscii output) (by decide) hspan
  -- the pool is no larger than the outputs
  have hsize : artifact.pool.size ≤ 0 := hpool ▸ Pool.size_greedy_le _
  refine ⟨_, artifact, rfl, hartifact, ?_⟩
  rw [poolLiterals, Array.size_eq_zero_iff.mp (Nat.le_zero.mp hsize)]
  rfl

/-- A dictionary whose only output is empty. The header has a line for its outputs that holds no literal, and
there are no rows of which each has a literal or more that make this text. -/
theorem empty_array_has_line :
    ∃ alphabet artifact, alphabet = ⟨['@'], ['%'], ':', by decide, by decide⟩ ∧
      (ofRules alphabet [⟨1, "ab", "a"⟩]).result = .ok artifact ∧ artifact.poolLiterals = [] ∧
      (∃ before, artifact.header = before ++ poolText [[]]) ∧
      ¬ ∃ before rows, artifact.header = before ++ poolText rows ∧
        rows.flatten = artifact.poolLiterals.dropLast.map (· ++ ",") ++
          artifact.poolLiterals.getLast?.toList ∧ Text.Full poolWidth rows := by
  obtain ⟨alphabet, artifact, halphabet, hartifact, hliterals⟩ := exists_artifact_no_output
  obtain ⟨before, hheader⟩ := exists_header_eq_of_nil hliterals
  refine ⟨alphabet, artifact, halphabet, hartifact, hliterals, ⟨before, hheader⟩, ?_⟩
  rintro ⟨before', rows, hheader', hflatten, hfull⟩
  -- without a literal there is no row that has one
  rw [hliterals] at hflatten
  obtain rfl := hfull.eq_nil_of_flatten_eq_nil hflatten
  exact append_poolText_nil_ne _ _ (hheader.symm.trans hheader')

end Artifact

end Shorthand
