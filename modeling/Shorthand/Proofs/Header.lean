import Shorthand.Header
import Shorthand.Proofs.Artifact
import Shorthand.Proofs.Dictionary
import Shorthand.Proofs.Text.Fill
import Shorthand.Proofs.Text.Hex
import Mathlib.Data.List.Forall2

/-!
# The code of a header

The texts of a dictionary are written into comments only. `Artifact.codeLines` is what each line of a
header has besides comments: it depends on the tables and the figures alone. A line of the header is such
a line of code with a comment at most (`Header.Line`), so nothing else is left when comments are taken off,
and no comment ends in a backslash, which would make it go on in the next line.

## Main statements

- `Artifact.lines_headerLines`: the lines of a header, next to their code.
- `Artifact.code_header`: the code of a header.
- `Artifact.code_header_eq`: artifacts that differ in their texts only have headers of the same code.
-/

namespace Shorthand

/-! ## Lines with comments -/

namespace Header

/-- A line up to the first comment mark. -/
def uncommented : List Char → List Char
  | [] => []
  | c :: line => if ['/', '/'].isPrefixOf (c :: line) then [] else c :: uncommented line

/-- The lines of a text without their comments. -/
def code (text : String) : List (List Char) :=
  (text.toList.splitOn '\n').map uncommented

/-- Whether a character neither ends a line nor continues it, and starts no comment. -/
def isPlain (c : Char) : Bool :=
  c != '\n' && c != '/' && c != '\\'

/-- A line that consists of some code, and a comment at most. -/
inductive Line (code : List Char) : List Char → Prop
  | bare : (∀ c ∈ code, isPlain c) → Line code code
  | commented {comment : List Char} : (∀ c ∈ code, isPlain c) → '\n' ∉ comment →
    comment.getLast? ≠ some '\\' → Line code (code ++ '/' :: '/' :: comment)

/-- Lines that consist of these lines of code, and a comment each at most. -/
abbrev Lines (codes lines : List String) : Prop :=
  List.Forall₂ (fun code line => Line code.toList line.toList) codes lines

variable {code line rest : List Char} {c : Char}

theorem isPlain_of_isAlphanum (h : c.isAlphanum) : isPlain c := by
  have hne (d : Char) (hd : d.isAlphanum = false) : c ≠ d := by
    rintro rfl
    exact Bool.false_ne_true (hd.symm.trans h)
  simp [isPlain, hne '\n' rfl, hne '/' rfl, hne '\\' rfl]

/-- A literal is plain if its characters are, which are checked here without evaluating it. -/
theorem isPlain_ofList (h : code.all isPlain) : ∀ c ∈ (String.ofList code).toList, isPlain c := by
  rw [String.toList_ofList]
  exact List.all_eq_true.mp h

theorem ne_of_isPlain (h : isPlain c) : c ≠ '\n' ∧ c ≠ '/' ∧ c ≠ '\\' := by
  simpa [isPlain, and_assoc] using h

/-- Code is left as it is. -/
theorem uncommented_append (h : ∀ c ∈ code, isPlain c) :
    uncommented (code ++ rest) = code ++ uncommented rest := by
  induction code with
  | nil => rfl
  | cons c code ih =>
    obtain ⟨hc, hcode⟩ := List.forall_mem_cons.mp h
    have hslash : '/' ≠ c := (ne_of_isPlain hc).2.1.symm
    rw [List.cons_append, uncommented, if_neg (by simp [hslash]), ih hcode, List.cons_append]

namespace Line

theorem uncommented_eq (h : Line code line) : uncommented line = code := by
  cases h with
  | bare hcode =>
    have happend : uncommented (code ++ []) = code ++ uncommented [] := uncommented_append hcode
    rwa [uncommented, List.append_nil] at happend
  | commented hcode =>
    rw [uncommented_append hcode, uncommented, if_pos (by simp), List.append_nil]

theorem not_mem (h : Line code line) : '\n' ∉ line := by
  cases h with
  | bare hcode => exact fun hmem => (ne_of_isPlain (hcode _ hmem)).1 rfl
  | commented hcode hcomment =>
    have hfree : '\n' ∉ code := fun hmem => (ne_of_isPlain (hcode _ hmem)).1 rfl
    simp [hfree, hcomment]

theorem getLast?_ne (h : Line code line) : line.getLast? ≠ some '\\' := by
  have hcode (hcode : ∀ c ∈ code, isPlain c) : code.getLast? ≠ some '\\' := fun hlast =>
    (ne_of_isPlain (hcode _ (List.mem_of_getLast? hlast))).2.2 rfl
  cases h with
  | bare h => exact hcode h
  | @commented comment _ _ hlast =>
    cases comment with
    | nil => simp
    | cons c comment => simpa using hlast

end Line

end Header

/-! ## Lines of a header -/

namespace Artifact

open Header

/-- Whether no text of an artifact has a line feed. -/
structure SingleLine (a : Artifact) : Prop where
  rules : ∀ r ∈ a.rules, r.SingleLine
  minSequence : '\n' ∉ a.minSequence.toList
  maxSequence : '\n' ∉ a.maxSequence.toList

/-- The line that defines a number. -/
def defineLine (name : String) (n : Nat) : String :=
  "#define " ++ name ++ " " ++ toString n

/-- The code in front of the rules. -/
def frontCode : List String :=
  ["", "", "", "#pragma once", "", "", ""]

/-- The code between the rules and the arrays. -/
def definitionCode (a : Artifact) : List String :=
  ["",
    s!"#define {formatName}",
    s!"#define SPECIAL_KEY_TRIECODE_0 {Text.Hex.literal 4 Alphabet.firstMagic}",
    defineLine "SEQUENCE_MIN_LENGTH" a.minSequence.length ++ " ",
    defineLine "SEQUENCE_MAX_LENGTH" a.maxSequence.length ++ " ",
    defineLine "COMPLETION_MAX_LENGTH" a.maxOutputLength,
    defineLine "MAX_BACKSPACES" a.maxBackspaces,
    defineLine "DICTIONARY_SIZE" a.table.size,
    defineLine "COMPLETIONS_SIZE" a.pool.size,
    defineLine "SEQUENCE_TRANSFORM_COUNT" a.magicCount,
    ""]

/-- The array of the words of the table. -/
def tableCode (a : Artifact) : List String :=
  arrayLines "uint16_t sequence_transform_data[DICTIONARY_SIZE]" tableWidth
    (a.table.toList.map fun word => Text.Hex.literal 4 word.toNat)

/-- The array of the bytes of the outputs. -/
def poolCode (a : Artifact) : List String :=
  arrayLines "uint8_t sequence_transform_completions_data[COMPLETIONS_SIZE]" poolWidth
    (a.pool.toList.map fun byte => Text.Hex.literal 2 byte.toNat)

/-- The code in front of the arrays. In place of each rule there is an empty line. -/
def preambleCode (a : Artifact) : List String :=
  frontCode ++ List.replicate a.rules.length "" ++ a.definitionCode

/-- The lines of the header without their comments. -/
def codeLines (a : Artifact) : List String :=
  a.preambleCode ++ a.tableCode ++ "" :: a.poolCode

variable {a b : Artifact} {r : Rule} {text : String} {c : Char}

/-! ### Comments -/

theorem toList_escaped (text : String) :
    (escaped text).toList =
      text.toList.flatMap fun c => if c = '\\' then "\\ [escape]".toList else [c] := by
  rw [escaped, String.toList_join, List.flatMap_map]
  congr 1
  funext c
  split <;> simp

theorem mem_of_mem_escaped (h : c ∈ (escaped text).toList) :
    c ∈ text.toList ∨ c ∈ "\\ [escape]".toList := by
  rw [toList_escaped] at h
  obtain ⟨d, hd, hc⟩ := List.mem_flatMap.mp h
  split at hc
  · exact .inr hc
  · exact .inl (List.mem_singleton.mp hc ▸ hd)

/-- After a backslash comes the word that marks it. -/
theorem getLast?_escaped (text : String) : (escaped text).toList.getLast? ≠ some '\\' := by
  rw [toList_escaped]
  rcases List.eq_nil_or_concat text.toList with hnil | ⟨init, c, hlast⟩
  · rw [hnil]
    exact nofun
  · rw [hlast, List.concat_eq_append, List.flatMap_append, List.flatMap_singleton]
    split
    next =>
      rw [List.getLast?_append_of_ne_nil _ (by decide)]
      decide
    next hc =>
      rw [List.getLast?_concat]
      simpa using hc

/-- The line of a rule is a comment. -/
theorem line_ruleLine (width : Nat) (h : r.SingleLine) : Line [] (ruleLine width r).toList := by
  have hline : ruleLine width r =
      "//    " ++ padded width r.context ++ " -> " ++ escaped r.correction := rfl
  have hcontext : '\n' ∉ (padded width r.context).toList := by
    simp [padded, h.1]
  have hcorrection : '\n' ∉ (escaped r.correction).toList := by
    intro hmem
    rcases mem_of_mem_escaped hmem with hmem | hmem
    · exact h.2 hmem
    · exact absurd hmem (by decide)
  have hlast : (" -> ".toList ++ (escaped r.correction).toList).getLast? ≠ some '\\' := by
    rw [List.getLast?_append]
    cases hescaped : (escaped r.correction).toList.getLast? with
    | none => decide
    | some c => simpa [hescaped] using getLast?_escaped r.correction
  have hcomment : (ruleLine width r).toList = [] ++ '/' :: '/' ::
      (("    ".toList ++ (padded width r.context).toList) ++
        (" -> ".toList ++ (escaped r.correction).toList)) := by
    rw [hline]
    simp
  rw [hcomment]
  refine .commented (List.forall_mem_nil _) (by simp [hcontext, hcorrection]) ?_
  rw [List.getLast?_append_of_ne_nil _ (by simp)]
  exact hlast

/-! ### Code -/

/-- A number defined is plain code. -/
theorem isPlain_defineLine {name : String} (h : ∀ c ∈ name.toList, isPlain c) (n : Nat) :
    ∀ c ∈ (defineLine name n).toList, isPlain c := by
  have hdefine : ∀ c ∈ "#define ".toList, isPlain c := isPlain_ofList (by decide)
  have hnumber : ∀ c ∈ (toString n).toList, isPlain c := fun c hc =>
    isPlain_of_isAlphanum (Text.isAlphanum_of_mem_toString hc)
  have hline : (defineLine name n).toList =
      "#define ".toList ++ name.toList ++ [' '] ++ (toString n).toList := by
    simp [defineLine]
  rw [hline]
  simp only [List.forall_mem_append, List.forall_mem_singleton]
  exact ⟨⟨⟨hdefine, h⟩, rfl⟩, hnumber⟩

theorem line_defineLine {name : String} (h : ∀ c ∈ name.toList, isPlain c) (n : Nat) :
    Line (defineLine name n).toList (defineLine name n).toList :=
  .bare (isPlain_defineLine h n)

theorem line_lengthLine {name : String} (h : ∀ c ∈ name.toList, isPlain c)
    (hfree : '\n' ∉ text.toList) :
    Line (defineLine name text.length ++ " ").toList (lengthLine name text).toList := by
  have hline : lengthLine name text =
      defineLine name text.length ++ " // \"" ++ text ++ "\"" := rfl
  have hcomment : (lengthLine name text).toList = (defineLine name text.length ++ " ").toList ++
      '/' :: '/' :: (' ' :: '"' :: text.toList ++ ['"']) := by
    rw [hline]
    simp
  rw [hcomment]
  refine .commented ?_ (by simp [hfree]) ?_
  · rw [String.toList_append]
    exact List.forall_mem_append.mpr ⟨isPlain_defineLine h _, isPlain_ofList (by decide)⟩
  · rw [List.getLast?_concat]
    decide

/-- The words of an array of literals have letters, digits and commas. -/
theorem isPlain_of_mem_fill {α : Type} {width digits : Nat} {values : List α} {value : α → Nat}
    {line : String}
    (h : line ∈ Text.fill width
      (Text.separate (values.map fun v => Text.Hex.literal digits (value v))))
    (hc : c ∈ line.toList) : isPlain c ∧ c ≠ '}' := by
  have hfixed : ∀ c ∈ [' ', ','], isPlain c ∧ c ≠ '}' := by simp [isPlain]
  rcases Text.mem_of_mem_fill h hc with rfl | ⟨word, hword, hc⟩
  · exact hfixed ' ' (by simp)
  rcases Text.mem_of_mem_separate hword hc with rfl | ⟨item, hitem, hc⟩
  · exact hfixed ',' (by simp)
  obtain ⟨v, -, rfl⟩ := List.mem_map.mp hitem
  refine ⟨isPlain_of_isAlphanum (Text.Hex.isAlphanum_of_mem_literal hc), ?_⟩
  rintro rfl
  exact Text.Hex.not_mem_literal rfl hc

theorem line_of_mem_arrayLines {α : Type} {declaration line : String} {width digits : Nat}
    {values : List α} {value : α → Nat} (hplain : ∀ c ∈ declaration.toList, isPlain c)
    (h : line ∈ arrayLines declaration width
      (values.map fun v => Text.Hex.literal digits (value v))) :
    Line line.toList line.toList := by
  apply Line.bare
  rw [arrayLines] at h
  rcases List.mem_cons.mp h with rfl | h
  · have hbefore : ∀ c ∈ "static const ".toList, isPlain c := isPlain_ofList (by decide)
    have hafter : ∀ c ∈ " PROGMEM = \x7b".toList, isPlain c := isPlain_ofList (by decide)
    simp only [String.toList_append, toString, List.forall_mem_append]
    exact ⟨⟨hbefore, hplain⟩, hafter⟩
  rcases List.mem_append.mp h with h | h
  · exact fun c hc => (isPlain_of_mem_fill h hc).1
  · rw [List.mem_singleton.mp h]
    exact isPlain_ofList (by decide)

/-! ### All lines -/

theorem line_empty : Line "".toList "".toList :=
  .bare (List.forall_mem_nil _)

theorem line_comment {comment : List Char} (hfree : '\n' ∉ comment)
    (hlast : comment.getLast? ≠ some '\\') :
    Line "".toList (String.ofList ('/' :: '/' :: comment)).toList := by
  have hline : (String.ofList ('/' :: '/' :: comment)).toList = [] ++ '/' :: '/' :: comment :=
    String.toList_ofList
  rw [hline]
  exact .commented (List.forall_mem_nil _) hfree hlast

theorem line_count (n : Nat) : Line "".toList s!"// Dictionary ({n} entries):".toList := by
  have hline : (s!"// Dictionary ({n} entries):").toList = [] ++ '/' :: '/' ::
      ((" Dictionary (".toList ++ (toString n).toList ++ " entries)".toList) ++ [':']) := by
    show ("// Dictionary (" ++ toString n ++ " entries):").toList = _
    simp
  have hfree : '\n' ∉ (toString n).toList := Text.not_mem_toString n rfl
  rw [hline]
  refine .commented (List.forall_mem_nil _) ?_ ?_
  · simp only [List.mem_append, not_or]
    exact ⟨⟨⟨by decide, hfree⟩, by decide⟩, by decide⟩
  · rw [List.getLast?_concat]
    decide

theorem lines_frontCode (n : Nat) :
    Lines frontCode
      ["// SPDX-License-Identifier: GPL-2.0-or-later", "// Generated by seqtrie, do not edit.", "",
        "#pragma once", "",
        "// Sequence Transformation dictionary with longest match semantics",
        s!"// Dictionary ({n} entries):"] :=
  .cons (line_comment (by decide) (by decide)) <| .cons (line_comment (by decide) (by decide)) <|
    .cons line_empty <| .cons (.bare (isPlain_ofList (by decide))) <| .cons line_empty <|
    .cons (line_comment (by decide) (by decide)) <| .cons (line_count n) .nil

theorem lines_definitionCode (h : a.SingleLine) :
    Lines a.definitionCode
      ["", s!"#define {formatName}",
        s!"#define SPECIAL_KEY_TRIECODE_0 {Text.Hex.literal 4 Alphabet.firstMagic}",
        lengthLine "SEQUENCE_MIN_LENGTH" a.minSequence,
        lengthLine "SEQUENCE_MAX_LENGTH" a.maxSequence,
        s!"#define COMPLETION_MAX_LENGTH {a.maxOutputLength}",
        s!"#define MAX_BACKSPACES {a.maxBackspaces}",
        s!"#define DICTIONARY_SIZE {a.table.size}",
        s!"#define COMPLETIONS_SIZE {a.pool.size}",
        s!"#define SEQUENCE_TRANSFORM_COUNT {a.magicCount}", ""] := by
  -- a name is given by its characters, which saves evaluating the literal
  have hnumber {name : List Char} (hname : name.all isPlain) (n : Nat) :
      Line (defineLine (String.ofList name) n).toList (defineLine (String.ofList name) n).toList :=
    line_defineLine (isPlain_ofList hname) n
  exact .cons line_empty <| .cons (.bare (List.all_eq_true.mp rfl)) <|
    .cons (.bare (List.all_eq_true.mp rfl)) <|
    .cons (line_lengthLine (isPlain_ofList (by decide)) h.minSequence) <|
    .cons (line_lengthLine (isPlain_ofList (by decide)) h.maxSequence) <|
    .cons (hnumber (by decide) _) <| .cons (hnumber (by decide) _) <|
    .cons (hnumber (by decide) _) <| .cons (hnumber (by decide) _) <|
    .cons (hnumber (by decide) _) <| .cons line_empty .nil

theorem lines_ruleLine (h : ∀ r ∈ a.rules, r.SingleLine) (width : Nat) :
    Lines (List.replicate a.rules.length "") (a.rules.map (ruleLine width)) := by
  rw [Lines, ← List.map_const', List.forall₂_map_left_iff, List.forall₂_map_right_iff,
    List.forall₂_same]
  exact fun r hr => line_ruleLine width (h r hr)

/-- Line by line, a header is its code and comments. -/
theorem lines_headerLines (h : a.SingleLine) : Lines a.codeLines a.headerLines := by
  have hpreamble := List.rel_append
    (List.rel_append (lines_frontCode a.rules.length) (lines_ruleLine h.rules a.maxSequence.length))
    (lines_definitionCode h)
  have htable : Lines a.tableCode a.tableCode :=
    List.forall₂_same.mpr fun _ => line_of_mem_arrayLines (isPlain_ofList (by decide))
  have hpool : Lines a.poolCode a.poolCode :=
    List.forall₂_same.mpr fun _ => line_of_mem_arrayLines (isPlain_ofList (by decide))
  exact List.rel_append (List.rel_append hpreamble htable) (.cons line_empty hpool)

/-- The header is split into its lines. -/
theorem splitOn_header (h : a.SingleLine) :
    a.header.toList.splitOn '\n' = a.headerLines.map String.toList ++ [[]] := by
  have hfree : ∀ line ∈ a.headerLines.map String.toList, '\n' ∉ line := by
    intro line hline
    obtain ⟨text, htext, rfl⟩ := List.mem_map.mp hline
    obtain ⟨code, -, hcode⟩ := exists_mem_of_forall₂ (lines_headerLines h) htext
    exact hcode.not_mem
  have htext : a.header.toList = (a.headerLines.map String.toList).flatMap (· ++ ['\n']) := by
    rw [header, String.toList_join, List.flatMap_map, List.flatMap_map]
    congr 1
    funext line
    simp
  rw [htext, Text.splitOn_flatMap hfree]

/-- Without its comments, a header is what its tables and figures make it. -/
theorem code_header (h : a.SingleLine) :
    code a.header = a.codeLines.map String.toList ++ [[]] := by
  have hlines : List.Forall₂ (· = ·) (a.codeLines.map String.toList)
      ((a.headerLines.map String.toList).map uncommented) := by
    rw [List.forall₂_map_left_iff, List.map_map, List.forall₂_map_right_iff]
    exact (lines_headerLines h).imp fun _ _ hline => hline.uncommented_eq.symm
  rw [List.forall₂_eq_eq_eq] at hlines
  rw [code, splitOn_header h, List.map_append, ← hlines]
  rfl

/-- No line of the header ends in a backslash. -/
theorem getLast?_of_mem_splitOn_header (h : a.SingleLine) {line : List Char}
    (hline : line ∈ a.header.toList.splitOn '\n') : line.getLast? ≠ some '\\' := by
  rw [splitOn_header h] at hline
  rcases List.mem_append.mp hline with hline | hline
  · obtain ⟨text, htext, rfl⟩ := List.mem_map.mp hline
    obtain ⟨code, -, hcode⟩ := exists_mem_of_forall₂ (lines_headerLines h) htext
    exact hcode.getLast?_ne
  · rw [List.mem_singleton.mp hline]
    exact nofun

/-! ## Headers of two artifacts -/

/-- Whether two artifacts have the same tables and figures, whatever their texts. -/
structure SameFigures (a b : Artifact) : Prop where
  table : a.table = b.table
  pool : a.pool = b.pool
  maxOutputLength : a.maxOutputLength = b.maxOutputLength
  maxBackspaces : a.maxBackspaces = b.maxBackspaces
  magicCount : a.magicCount = b.magicCount
  rules : a.rules.length = b.rules.length
  minSequence : a.minSequence.length = b.minSequence.length
  maxSequence : a.maxSequence.length = b.maxSequence.length

theorem SameFigures.codeLines_eq (h : a.SameFigures b) : a.codeLines = b.codeLines := by
  unfold codeLines preambleCode definitionCode tableCode poolCode
  rw [h.table, h.pool, h.maxOutputLength, h.maxBackspaces, h.magicCount, h.rules, h.minSequence,
    h.maxSequence]

/-- What is compiled from a dictionary has the texts of its rules. -/
theorem singleLine_of_ofText {alphabet : Alphabet} {marks : Marks}
    (h : (ofText alphabet marks text).result = .ok a) : a.SingleLine := by
  rw [ofText, LoggedExcept.result_bind, LoggedExcept.result_mapError] at h
  obtain ⟨rules, hrules, h⟩ := bind_eq_ok_iff.mp h
  rw [mapError_eq_ok_iff] at hrules
  obtain ⟨shortest, longest, m, edits, pool, words, hshortest, hlongest, -, -, -, -, rfl⟩ :=
    ofRules_eq_ok_iff.mp h
  have hsingle (r : Rule) (hr : r ∈ rules) : r.SingleLine :=
    Dictionary.singleLine_of_rules hrules hr
  exact ⟨hsingle, (hsingle _ (List.minOn?_mem hshortest)).1,
    (hsingle _ (List.maxOn?_mem hlongest)).1⟩

/-- The texts of a dictionary stay in the comments of a header: artifacts whose texts have no line feed,
and that have the same tables and figures, have headers that are equal but for their comments, and no line
of these ends in a backslash, which would continue a comment. The rules of a dictionary, and what is
compiled from them, have no line feed in their texts. -/
theorem code_header_eq (ha : a.SingleLine) (hb : b.SingleLine) (h : a.SameFigures b) :
    code a.header = code b.header ∧
      (∀ line ∈ a.header.toList.splitOn '\n', line.getLast? ≠ some '\\') ∧
      (∀ line ∈ b.header.toList.splitOn '\n', line.getLast? ≠ some '\\') ∧
      ∀ alphabet marks text,
        (∀ rules, (Dictionary.rules alphabet marks text).result = .ok rules →
          ∀ r ∈ rules, r.SingleLine) ∧
        ∀ c, (ofText alphabet marks text).result = .ok c → c.SingleLine := by
  refine ⟨?_, fun _ => getLast?_of_mem_splitOn_header ha,
    fun _ => getLast?_of_mem_splitOn_header hb, fun _ _ _ => ⟨fun _ hrules _ =>
      Dictionary.singleLine_of_rules hrules, fun _ => singleLine_of_ofText⟩⟩
  rw [code_header ha, code_header hb, h.codeLines_eq]

/-- The texts of the second rule hold a comment mark, and its correction ends in a backslash. -/
theorem code_header_eq_backslash :
    ∃ a b : Artifact, a.rules = [⟨1, "ab", "x"⟩] ∧ b.rules = [⟨4, "/*", "*/ // \\"⟩] ∧
      a.SingleLine ∧ b.SingleLine ∧ a.SameFigures b ∧ code a.header = code b.header ∧
      ∀ line ∈ b.header.toList.splitOn '\n', line.getLast? ≠ some '\\' := by
  obtain ⟨a, ha⟩ : ∃ a : Artifact,
      a = ⟨#[0x8001, 0], #[0x78], [⟨1, "ab", "x"⟩], "ab", "ab", 1, 0, 1⟩ := ⟨_, rfl⟩
  obtain ⟨b, hb⟩ : ∃ b : Artifact,
      b = ⟨#[0x8001, 0], #[0x78], [⟨4, "/*", "*/ // \\"⟩], "/*", "/*", 1, 0, 1⟩ := ⟨_, rfl⟩
  have hsingle : a.SingleLine := by
    subst ha
    exact ⟨by simp [Rule.SingleLine], by simp, by simp⟩
  have hsingle' : b.SingleLine := by
    subst hb
    exact ⟨by simp [Rule.SingleLine], by simp, by simp⟩
  have hfigures : a.SameFigures b := by
    subst ha hb
    exact ⟨rfl, rfl, rfl, rfl, rfl, rfl, rfl, rfl⟩
  obtain ⟨hcode, -, hlast, -⟩ := code_header_eq hsingle hsingle' hfigures
  refine ⟨a, b, ?_, ?_, hsingle, hsingle', hfigures, hcode, hlast⟩
  · rw [ha]
  · rw [hb]

end Artifact

end Shorthand
