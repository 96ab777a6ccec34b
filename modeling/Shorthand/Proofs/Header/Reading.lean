import Shorthand.Proofs.Header

/-!
# Headers carry the tables

What a compiler finds in a header is read from its code, that is, without the comments. `Header.defined`
are the texts that a name is defined as, and `Header.array?` reads the literals between the braces of an
array, which are separated by commas, wherever the lines are broken. What is read are the tables and the
figures of the artifact.

## Main statements

- `Header.literals?_of_spread`: literals that are spread over lines are read back.
- `Artifact.defined_header`: which names are defined, and as which texts.
- `Artifact.header_reads`: the tables and figures that are read from a header.
-/

namespace Shorthand

/-! ## Reading -/

namespace Header

/-- What follows a beginning, if a line has it. -/
def after? (start line : List Char) : Option (List Char) :=
  if start.isPrefixOf line then some (line.drop start.length) else none

/-- The text that a line defines a name as, if it does: the word after the name. -/
def definition? (name : String) (line : List Char) : Option String :=
  (after? "#define ".toList line).bind fun rest =>
    match rest.splitOn ' ' with
    | key :: value :: _ => if key = name.toList then some (String.ofList value) else none
    | _ => none

/-- The texts that a name is defined as in a header. -/
def defined (name text : String) : List String :=
  (code text).filterMap (definition? name)

/-- The numbers of the literals in a text, which are separated by commas. White space has none. -/
def literals? (text : List Char) : Option (List Nat) :=
  let items := (text.splitOn ',').map Text.trim
  if items = [[]] then some [] else items.mapM Text.Hex.value?

/-- The lines of a header from a declaration on. -/
def fromDeclaration (declaration text : String) : List (List Char) :=
  (code text).dropWhile fun line => !(("static const " ++ declaration ++ "[").toList.isPrefixOf line)

/-- The numbers of the literals between the braces of an array. -/
def array? (declaration text : String) : Option (List Nat) :=
  let declared := (fromDeclaration declaration text).flatMap (· ++ ['\n'])
  literals? (((declared.dropWhile (· != '\x7b')).drop 1).takeWhile (· != '\x7d'))

variable {name key value : String} {line start rest text : List Char}

theorem after?_append (start rest : List Char) : after? start (start ++ rest) = some rest := by
  simp [after?]

/-- A line with another first character does not begin so. -/
theorem isPrefixOf_of_head? {c : Char} (start : List Char) (h : line.head? ≠ some c) :
    (c :: start).isPrefixOf line = false := by
  cases line with
  | nil => rfl
  | cons d line =>
    have hne : c ≠ d := fun heq => h (by rw [heq, List.head?_cons])
    rw [List.isPrefixOf_cons_cons, beq_eq_false_iff_ne.mpr hne, Bool.false_and]

theorem define_eq : "#define ".toList = ['#', 'd', 'e', 'f', 'i', 'n', 'e', ' '] :=
  String.toList_ofList

theorem definition?_of_isPrefixOf (h : "#define ".toList.isPrefixOf line = false) :
    definition? name line = none := by
  rw [definition?, after?, if_neg (by rw [h]; decide), Option.bind_none]

theorem definition?_of_head? (h : line.head? ≠ some '#') : definition? name line = none :=
  definition?_of_isPrefixOf (define_eq ▸ isPrefixOf_of_head? _ h)

theorem definition?_pragma : definition? name "#pragma once".toList = none := by
  have hline : "#pragma once".toList = ['#', 'p', 'r', 'a', 'g', 'm', 'a', ' ', 'o', 'n', 'c', 'e'] :=
    String.toList_ofList
  apply definition?_of_isPrefixOf
  rw [define_eq, hline]
  decide

/-- A line that defines a name as a word, with a space at its end or not. -/
theorem definition?_define (hkey : ' ' ∉ key.toList) (hvalue : ' ' ∉ value.toList)
    (hrest : rest = [] ∨ ∃ after, rest = ' ' :: after) :
    definition? name ("#define ".toList ++ (key.toList ++ ' ' :: (value.toList ++ rest))) =
      if key = name then some value else none := by
  obtain ⟨after, hafter⟩ : ∃ after, (value.toList ++ rest).splitOn ' ' = value.toList :: after := by
    rcases hrest with rfl | ⟨after, rfl⟩
    · exact ⟨[], by rw [List.append_nil, List.splitOn_eq_singleton hvalue]⟩
    · exact ⟨_, List.splitOn_append_cons_self_of_not_mem hvalue after⟩
  rw [definition?, after?_append, Option.bind_some,
    List.splitOn_append_cons_self_of_not_mem hkey, hafter]
  simp only [String.toList_inj, String.ofList_toList]

/-- A definition without a text. -/
theorem definition?_bare (hkey : ' ' ∉ key.toList) :
    definition? name ("#define ".toList ++ key.toList) = none := by
  rw [definition?, after?_append, Option.bind_some, List.splitOn_eq_singleton hkey]

/-- Lines that define these names one after the other. -/
theorem filterMap_definition? {definitions : List (String × String)} {lines : List (List Char)}
    (h : List.Forall₂ (fun d line => definition? name line = if d.1 = name then some d.2 else none)
      definitions lines) :
    lines.filterMap (definition? name) = (definitions.filter (·.1 = name)).map (·.2) := by
  induction h with
  | nil => rfl
  | @cons d line definitions lines hline _ ih =>
    by_cases hname : d.1 = name
    · rw [if_pos hname] at hline
      rw [List.filterMap_cons_some hline, ih, List.filter_cons_of_pos (by simpa using hname),
        List.map_cons]
    · rw [if_neg hname] at hline
      rw [List.filterMap_cons_none hline, ih, List.filter_cons_of_neg (by simpa using hname)]

theorem filterMap_eq_nil {lines : List (List Char)} (h : ∀ line ∈ lines, line.head? ≠ some '#') :
    lines.filterMap (definition? name) = [] :=
  List.filterMap_eq_nil_iff.mpr fun line hline => definition?_of_head? (h line hline)

/-- Literals that are spread over lines are read back. -/
theorem literals?_of_spread {α : Type} {values : List α} {value : α → Nat} {width : Nat}
    (hwidth : width ≠ 0) (hlt : ∀ v, value v < 16 ^ width)
    (h : Text.Spread (Text.separate (values.map fun v => Text.Hex.literal width (value v))) text) :
    literals? text = some (values.map value) := by
  rcases eq_or_ne values [] with rfl | hne
  · cases h with
    | nil hblank =>
      have hcomma : ',' ∉ text := fun hmem => absurd (hblank _ hmem) (by decide)
      simp [literals?, List.splitOn_eq_singleton hcomma, Text.trim_blank hblank]
  have hitems : ∀ item ∈ values.map fun v => Text.Hex.literal width (value v),
      item.toList ≠ [] ∧ ',' ∉ item.toList ∧ ∀ c ∈ item.toList, Text.isBlank c = false := by
    intro item hitem
    -- a literal has letters and digits only
    obtain ⟨v, -, rfl⟩ := List.mem_map.mp hitem
    exact ⟨by simp [Text.Hex.toList_literal], Text.Hex.not_mem_literal rfl,
      fun c hc => Text.isBlank_eq_false (Text.Hex.isAlphanum_of_mem_literal hc)⟩
  have hvalue (v : α) : Text.Hex.value? (Text.Hex.literal width (value v)).toList = some (value v) :=
    Text.Hex.value?_literal hwidth (hlt v)
  rw [literals?, Text.splitOn_of_spread_separate h (by simpa using hne) hitems]
  have hfirst : (values.map fun v => Text.Hex.literal width (value v)).map String.toList ≠ [[]] := by
    intro heq
    obtain ⟨v, rest, rfl⟩ := List.exists_cons_of_ne_nil hne
    simp [Text.Hex.toList_literal] at heq
  have hread : (values.map fun v => Text.Hex.literal width (value v)).map String.toList =
      values.map fun v => (Text.Hex.literal width (value v)).toList := List.map_map ..
  rw [if_neg hfirst, hread, List.mapM_map]
  simp only [Function.comp_def, hvalue]
  exact List.mapM_pure

/-- What stands between the braces of an array are the lines between its first and its last one. -/
theorem array?_eq {declaration full text : String} {lines : List String} {after : List (List Char)}
    (hopen : '\x7b' ∉ full.toList) (hclose : ∀ line ∈ lines, '\x7d' ∉ line.toList)
    (h : fromDeclaration declaration text =
      (s!"static const {full} PROGMEM = \x7b" :: (lines ++ ["\x7d;"])).map String.toList ++ after) :
    array? declaration text = literals? ('\n' :: Text.joined lines) := by
  have hfirst : (s!"static const {full} PROGMEM = \x7b").toList =
      ("static const ".toList ++ full.toList ++ " PROGMEM = ".toList) ++ ['\x7b'] := by
    show ("static const " ++ full ++ " PROGMEM = \x7b").toList = _
    simp
  have hfront : ∀ c ∈ "static const ".toList ++ full.toList ++ " PROGMEM = ".toList,
      c != '\x7b' := by
    simp only [List.forall_mem_append]
    refine ⟨⟨List.all_eq_true.mp rfl, fun c hc => bne_iff_ne.mpr ?_⟩, List.all_eq_true.mp rfl⟩
    rintro rfl
    exact hopen hc
  have hinside : ∀ c ∈ '\n' :: Text.joined lines, c != '\x7d' := by
    refine List.forall_mem_cons.mpr ⟨rfl, fun c hc => bne_iff_ne.mpr ?_⟩
    rintro rfl
    obtain ⟨line, hline, hc⟩ := List.mem_flatMap.mp hc
    rcases List.mem_append.mp hc with hc | hc
    · exact hclose line hline hc
    · exact absurd (List.mem_singleton.mp hc) (by decide)
  have hdeclared : (fromDeclaration declaration text).flatMap (· ++ ['\n']) =
      ("static const ".toList ++ full.toList ++ " PROGMEM = ".toList) ++ '\x7b' ::
        (('\n' :: Text.joined lines) ++ '\x7d' :: (';' :: '\n' :: after.flatMap (· ++ ['\n']))) := by
    rw [h, List.map_cons, hfirst, Text.joined]
    simp [List.flatMap_map]
  rw [array?, hdeclared, List.dropWhile_append_of_pos hfront, List.dropWhile_cons_of_neg (by decide),
    List.drop_one, List.tail_cons, List.takeWhile_append_of_pos hinside,
    List.takeWhile_cons_of_neg (by decide), List.append_nil]

/-- An array of literals is read as their numbers, whatever comes after it. -/
theorem array?_of_arrayLines {α : Type} {declaration full text : String} {values : List α}
    {value : α → Nat} {width digits : Nat} {after : List (List Char)} (hdigits : digits ≠ 0)
    (hlt : ∀ v, value v < 16 ^ digits) (hopen : '\x7b' ∉ full.toList)
    (h : fromDeclaration declaration text =
      (Artifact.arrayLines full width
        (values.map fun v => Text.Hex.literal digits (value v))).map String.toList ++ after) :
    array? declaration text = some (values.map value) := by
  rw [array?_eq hopen (fun line hline hmem => (Artifact.isPlain_of_mem_fill hline hmem).2 rfl) h]
  have hbreak : ∀ c ∈ ['\n'], Text.isBlank c := List.all_eq_true.mp rfl
  exact literals?_of_spread hdigits hlt ((Text.spread_fill ..).blank hbreak)

end Header

namespace Artifact

open Header

variable {a : Artifact} {name key : String}

/-- The names that a header defines, with their texts. -/
def definitions (a : Artifact) : List (String × String) :=
  [("SPECIAL_KEY_TRIECODE_0", Text.Hex.literal 4 Alphabet.firstMagic),
    ("SEQUENCE_MIN_LENGTH", toString a.minSequence.length),
    ("SEQUENCE_MAX_LENGTH", toString a.maxSequence.length),
    ("COMPLETION_MAX_LENGTH", toString a.maxOutputLength),
    ("MAX_BACKSPACES", toString a.maxBackspaces),
    ("DICTIONARY_SIZE", toString a.table.size),
    ("COMPLETIONS_SIZE", toString a.pool.size),
    ("SEQUENCE_TRANSFORM_COUNT", toString a.magicCount)]

/-! ### Definitions -/

theorem definition?_defineLine {rest : List Char} (hkey : ' ' ∉ key.toList) (n : Nat)
    (hrest : rest = [] ∨ ∃ after, rest = ' ' :: after) :
    definition? name ((defineLine key n).toList ++ rest) =
      if key = name then some (toString n) else none := by
  have hline : (defineLine key n).toList ++ rest =
      "#define ".toList ++ (key.toList ++ ' ' :: ((toString n).toList ++ rest)) := by
    simp [defineLine]
  rw [hline, definition?_define hkey (Text.not_mem_toString n rfl) hrest]

/-- A line of an array is its declaration, or begins with a space or a brace. -/
theorem head?_of_mem_arrayLines {declaration line : String} {width : Nat} {literals : List String}
    (h : line ∈ arrayLines declaration width literals) :
    line = s!"static const {declaration} PROGMEM = \x7b" ∨ line.toList.head? = some ' ' ∨
      line.toList.head? = some '\x7d' := by
  rw [arrayLines] at h
  rcases List.mem_cons.mp h with h | h
  · exact .inl h
  rcases List.mem_append.mp h with h | h
  · obtain ⟨rest, hrest⟩ := Text.indent_prefix_of_mem_fill h
    rw [← hrest]
    exact .inr (.inl (by simp [Text.indent]))
  · rw [List.mem_singleton.mp h]
    exact .inr (.inr (by simp))

/-- No line of an array defines a name. -/
theorem filterMap_arrayLines (declaration : String) (width : Nat) (literals : List String) :
    ((arrayLines declaration width literals).map String.toList).filterMap (definition? name) = [] := by
  apply filterMap_eq_nil
  intro line hline
  obtain ⟨line, hmem, rfl⟩ := List.mem_map.mp hline
  rcases head?_of_mem_arrayLines hmem with rfl | h | h
  · show ("static const " ++ declaration ++ " PROGMEM = \x7b").toList.head? ≠ some '#'
    simp
  · rw [h]
    decide
  · rw [h]
    decide

theorem definition?_empty : definition? name "".toList = none :=
  definition?_of_head? nofun

theorem filterMap_frontCode : (frontCode.map String.toList).filterMap (definition? name) = [] := by
  simp only [frontCode, List.map_cons, List.map_nil, List.filterMap_cons_none definition?_empty,
    List.filterMap_cons_none definition?_pragma, List.filterMap_nil]

theorem definition?_formatName : definition? name (s!"#define {formatName}").toList = none := by
  have hline : (s!"#define {formatName}").toList = "#define ".toList ++ formatName.toList := by
    show ("#define " ++ formatName).toList = _
    rw [String.toList_append]
  rw [hline, definition?_bare (by decide)]

theorem definition?_firstMagic :
    definition? name
        (s!"#define SPECIAL_KEY_TRIECODE_0 {Text.Hex.literal 4 Alphabet.firstMagic}").toList =
      if "SPECIAL_KEY_TRIECODE_0" = name then some (Text.Hex.literal 4 Alphabet.firstMagic)
      else none := by
  have hline :
      (s!"#define SPECIAL_KEY_TRIECODE_0 {Text.Hex.literal 4 Alphabet.firstMagic}").toList =
        "#define ".toList ++ ("SPECIAL_KEY_TRIECODE_0".toList ++ ' ' ::
          ((Text.Hex.literal 4 Alphabet.firstMagic).toList ++ [])) := by
    show ("#define SPECIAL_KEY_TRIECODE_0 " ++ Text.Hex.literal 4 Alphabet.firstMagic).toList = _
    simp
  rw [hline, definition?_define (by decide) (by decide) (.inl rfl)]

theorem filterMap_definitionCode :
    (a.definitionCode.map String.toList).filterMap (definition? name) =
      (a.definitions.filter (·.1 = name)).map (·.2) := by
  have hnumber {key : List Char} (hkey : ' ' ∉ key) (n : Nat) :
      definition? name (defineLine (String.ofList key) n).toList =
        if String.ofList key = name then some (toString n) else none := by
    rw [← definition?_defineLine (by rwa [String.toList_ofList]) n (.inl rfl), List.append_nil]
  have hlength {key : List Char} (hkey : ' ' ∉ key) (n : Nat) :
      definition? name (defineLine (String.ofList key) n ++ " ").toList =
        if String.ofList key = name then some (toString n) else none := by
    rw [String.toList_append]
    exact definition?_defineLine (by rwa [String.toList_ofList]) n (.inr ⟨[], rfl⟩)
  -- two lines at the front and one at the end define no text
  obtain ⟨lines, hcode, hlines⟩ : ∃ lines : List String,
      a.definitionCode = "" :: s!"#define {formatName}" :: (lines ++ [""]) ∧
      List.Forall₂ (fun d line => definition? name line = if d.1 = name then some d.2 else none)
        a.definitions (lines.map String.toList) :=
    ⟨[_, _, _, _, _, _, _, _], rfl, .cons definition?_firstMagic <|
      .cons (hlength (by decide) _) <| .cons (hlength (by decide) _) <|
      .cons (hnumber (by decide) _) <| .cons (hnumber (by decide) _) <|
      .cons (hnumber (by decide) _) <| .cons (hnumber (by decide) _) <|
      .cons (hnumber (by decide) _) .nil⟩
  rw [hcode, List.map_cons, List.filterMap_cons_none definition?_empty, List.map_cons,
    List.filterMap_cons_none definition?_formatName, List.map_append, List.filterMap_append,
    filterMap_definition? hlines, List.map_singleton, List.filterMap_cons_none definition?_empty,
    List.filterMap_nil, List.append_nil]

/-- What a header defines a name as. -/
theorem defined_header (h : a.SingleLine) :
    defined name a.header = (a.definitions.filter (·.1 = name)).map (·.2) := by
  have hrules : ((List.replicate a.rules.length "").map String.toList).filterMap (definition? name) =
      [] := by
    apply List.filterMap_eq_nil_iff.mpr
    intro line hline
    rw [List.map_replicate] at hline
    rw [List.eq_of_mem_replicate hline, definition?_empty]
  have htable : (a.tableCode.map String.toList).filterMap (definition? name) = [] :=
    filterMap_arrayLines ..
  have hpool : (a.poolCode.map String.toList).filterMap (definition? name) = [] :=
    filterMap_arrayLines ..
  have hlast : [([] : List Char)].filterMap (definition? name) = [] :=
    filterMap_eq_nil (by simp)
  rw [defined, code_header h, codeLines, preambleCode]
  simp only [List.map_append, List.map_cons, List.filterMap_append,
    List.filterMap_cons_none definition?_empty, filterMap_frontCode, hrules, htable, hpool, hlast,
    filterMap_definitionCode, List.nil_append, List.append_nil]

/-! ### Arrays -/

theorem isPrefixOf_eq_false (declaration : String) {line : List Char} (h : line.head? ≠ some 's') :
    ("static const " ++ declaration ++ "[").toList.isPrefixOf line = false := by
  have hstart : ("static const " ++ declaration ++ "[").toList =
      's' :: ("tatic const ".toList ++ declaration.toList ++ ['[']) := by
    simp
  rw [hstart]
  exact isPrefixOf_of_head? _ h

/-- The lines from a declaration on, if no line before it begins like it. -/
theorem fromDeclaration_eq {declaration full text : String} {rest : List Char} {width : Nat}
    {literals : List String} {before after : List (List Char)}
    (hfull : full.toList = declaration.toList ++ '[' :: rest)
    (hcode : code text = before ++ ((arrayLines full width literals).map String.toList ++ after))
    (hbefore : ∀ line ∈ before,
      ("static const " ++ declaration ++ "[").toList.isPrefixOf line = false) :
    fromDeclaration declaration text = (arrayLines full width literals).map String.toList ++ after := by
  have hfirst : ("static const " ++ declaration ++ "[").toList <+:
      (s!"static const {full} PROGMEM = \x7b").toList := by
    show _ <+: ("static const " ++ full ++ " PROGMEM = \x7b").toList
    simp [hfull]
  rw [fromDeclaration, hcode, List.dropWhile_append_of_pos (by simpa using hbefore), arrayLines,
    List.map_cons, List.cons_append, List.dropWhile_cons_of_neg (by simpa using hfirst)]

/-- No line before the arrays is a declaration. -/
theorem isPrefixOf_of_mem_preambleCode (declaration : String) :
    ∀ line ∈ a.preambleCode.map String.toList,
      ("static const " ++ declaration ++ "[").toList.isPrefixOf line = false := by
  have hfront : ∀ line ∈ frontCode, line.toList.head? ≠ some 's' := by decide
  have hdefine (key : String) (n : Nat) : (defineLine key n).toList.head? = some '#' := by
    simp [defineLine]
  have hdefinitions : ∀ line ∈ a.definitionCode, line.toList.head? ≠ some 's' := by
    simp [definitionCode, hdefine, toString]
  refine List.forall_mem_map.mpr fun line hline => isPrefixOf_eq_false declaration ?_
  rcases List.mem_append.mp hline with hline | hline
  · rcases List.mem_append.mp hline with hline | hline
    · exact hfront line hline
    · rw [List.eq_of_mem_replicate hline]
      decide
  · exact hdefinitions line hline

/-- The lines of the first array, after those before it. -/
theorem code_header_table (h : a.SingleLine) :
    code a.header = a.preambleCode.map String.toList ++
      (a.tableCode.map String.toList ++ ([] :: (a.poolCode.map String.toList ++ [[]]))) := by
  rw [code_header h, codeLines]
  simp only [List.map_append, List.map_cons, List.append_assoc, List.cons_append,
    String.toList_empty]

/-- The first array holds the table. -/
theorem array?_table (h : a.SingleLine) :
    array? "uint16_t sequence_transform_data" a.header =
      some (a.table.toList.map UInt16.toNat) := by
  have hfull : "uint16_t sequence_transform_data[DICTIONARY_SIZE]".toList =
      "uint16_t sequence_transform_data".toList ++ '[' :: "DICTIONARY_SIZE]".toList := by
    simp
  have hlines := fromDeclaration_eq hfull (code_header_table h) (isPrefixOf_of_mem_preambleCode _)
  exact array?_of_arrayLines (by decide) (fun word => word.toNat_lt) (by simp) hlines

/-- The second one holds the bytes of the outputs. -/
theorem array?_pool (h : a.SingleLine) :
    array? "uint8_t sequence_transform_completions_data" a.header =
      some (a.pool.toList.map UInt8.toNat) := by
  have hfull : "uint8_t sequence_transform_completions_data[COMPLETIONS_SIZE]".toList =
      "uint8_t sequence_transform_completions_data".toList ++ '[' :: "COMPLETIONS_SIZE]".toList := by
    simp
  -- the type tells the declaration of the first array from this one
  have htable : ∀ line ∈ a.tableCode.map String.toList ++ [[]],
      ("static const " ++ "uint8_t sequence_transform_completions_data" ++ "[").toList.isPrefixOf
        line = false := by
    intro line hline
    rcases List.mem_append.mp hline with hline | hline
    · obtain ⟨line, hmem, rfl⟩ := List.mem_map.mp hline
      rcases head?_of_mem_arrayLines hmem with rfl | hhead | hhead
      · show List.isPrefixOf _ ("static const " ++
          "uint16_t sequence_transform_data[DICTIONARY_SIZE]" ++ " PROGMEM = \x7b").toList = false
        simp [List.isPrefixOf]
      · exact isPrefixOf_eq_false _ (by rw [hhead]; decide)
      · exact isPrefixOf_eq_false _ (by rw [hhead]; decide)
    · rw [List.mem_singleton.mp hline]
      exact isPrefixOf_eq_false _ nofun
  have hcode : code a.header =
      (a.preambleCode.map String.toList ++ (a.tableCode.map String.toList ++ [[]])) ++
        (a.poolCode.map String.toList ++ [[]]) := by
    rw [code_header_table h]
    simp only [List.append_assoc, List.cons_append, List.nil_append]
  have hlines := fromDeclaration_eq hfull hcode
    (List.forall_mem_append.mpr ⟨isPrefixOf_of_mem_preambleCode _, htable⟩)
  exact array?_of_arrayLines (by decide) (fun byte => byte.toNat_lt) (by simp) hlines

/-! ### What is read -/

/-- A header carries the tables and the figures of its artifact. The literals between the braces of the
arrays are read as the words of the table and the bytes of the outputs, and each of these names is defined
once, as a number that reads as the figure. -/
theorem header_reads (h : a.SingleLine) :
    array? "uint16_t sequence_transform_data" a.header =
        some (a.table.toList.map UInt16.toNat) ∧
      array? "uint8_t sequence_transform_completions_data" a.header =
        some (a.pool.toList.map UInt8.toNat) ∧
      ∀ figure ∈ [("DICTIONARY_SIZE", a.table.toList.length),
          ("COMPLETIONS_SIZE", a.pool.toList.length),
          ("SEQUENCE_MIN_LENGTH", a.minSequence.length),
          ("SEQUENCE_MAX_LENGTH", a.maxSequence.length),
          ("COMPLETION_MAX_LENGTH", a.maxOutputLength), ("MAX_BACKSPACES", a.maxBackspaces),
          ("SEQUENCE_TRANSFORM_COUNT", a.magicCount)],
        (defined figure.1 a.header).map String.toNat? = [some figure.2] := by
  refine ⟨array?_table h, array?_pool h, ?_⟩
  intro figure hfigure
  rw [defined_header h]
  simp only [List.mem_cons, List.not_mem_nil, or_false] at hfigure
  rcases hfigure with rfl | rfl | rfl | rfl | rfl | rfl | rfl <;> simp [definitions]

/-- One rule, whose correction looks like a definition. -/
theorem header_reads_one_rule :
    ∃ a : Artifact, a.rules = [⟨1, "ab", "#define MAX_BACKSPACES 7"⟩] ∧ a.SingleLine ∧
      array? "uint16_t sequence_transform_data" a.header = some [0x8081, 0] ∧
      array? "uint8_t sequence_transform_completions_data" a.header = some [0x78] ∧
      (defined "MAX_BACKSPACES" a.header).map String.toNat? = [some 1] := by
  obtain ⟨a, ha⟩ : ∃ a : Artifact, a = ⟨#[0x8081, 0], #[0x78],
      [⟨1, "ab", "#define MAX_BACKSPACES 7"⟩], "ab", "ab", 1, 1, 1⟩ := ⟨_, rfl⟩
  have hsingle : a.SingleLine := by
    subst ha
    exact ⟨by simp [Rule.SingleLine], by simp, by simp⟩
  obtain ⟨htable, hpool, hfigures⟩ := header_reads hsingle
  have hmax := hfigures ("MAX_BACKSPACES", a.maxBackspaces) (by simp)
  subst ha
  exact ⟨_, rfl, hsingle, htable, hpool, hmax⟩

end Artifact

end Shorthand
