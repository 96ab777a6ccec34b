import Shorthand.Artifact
import Shorthand.Text.Fill

/-!
# Headers

An artifact is handed to the firmware as a header with two arrays, the figures, and the rules in
comments. The text depends on the artifact alone, so the same dictionary gives the same header.
-/

namespace Shorthand.Artifact

/-- The widest line of the table. -/
def tableWidth : Nat := 135

/-- The widest line of the outputs. -/
def poolWidth : Nat := 100

/-- The name by which the firmware knows the format. -/
def formatName : String := "SEQUENCE_TRANSFORM_GENERATOR_VERSION_0_1_0"

/-- A text with spaces after it up to a width. -/
def padded (width : Nat) (text : String) : String :=
  text ++ String.ofList (List.replicate (width - text.length) ' ')

/-- A correction within a comment. A backslash is followed by a word, so that it cannot end the
line. -/
def escaped (correction : String) : String :=
  String.join (correction.toList.map fun c => if c = '\\' then "\\ [escape]" else c.toString)

/-- The comment line of a rule. -/
def ruleLine (width : Nat) (r : Rule) : String :=
  s!"//    {padded width r.context} -> {escaped r.correction}"

/-- The line that gives the length of a sequence. -/
def lengthLine (name sequence : String) : String :=
  s!"#define {name} {sequence.length} // \"{sequence}\""

/-- The lines of an array of literals. -/
def arrayLines (declaration : String) (width : Nat) (literals : List String) : List String :=
  s!"static const {declaration} PROGMEM = \x7b" ::
    (Text.fill width (Text.separate literals) ++ ["\x7d;"])

/-- The lines of the header. -/
def headerLines (a : Artifact) : List String :=
  ["// SPDX-License-Identifier: GPL-2.0-or-later",
    "// Generated by seqtrie, do not edit.",
    "",
    "#pragma once",
    "",
    "// Sequence Transformation dictionary with longest match semantics",
    s!"// Dictionary ({a.rules.length} entries):"] ++
  a.rules.map (ruleLine a.maxSequence.length) ++
  ["",
    s!"#define {formatName}",
    s!"#define SPECIAL_KEY_TRIECODE_0 {Text.Hex.literal 4 Alphabet.firstMagic}",
    lengthLine "SEQUENCE_MIN_LENGTH" a.minSequence,
    lengthLine "SEQUENCE_MAX_LENGTH" a.maxSequence,
    s!"#define COMPLETION_MAX_LENGTH {a.maxOutputLength}",
    s!"#define MAX_BACKSPACES {a.maxBackspaces}",
    s!"#define DICTIONARY_SIZE {a.table.size}",
    s!"#define COMPLETIONS_SIZE {a.pool.size}",
    s!"#define SEQUENCE_TRANSFORM_COUNT {a.magicCount}",
    ""] ++
  arrayLines "uint16_t sequence_transform_data[DICTIONARY_SIZE]" tableWidth
    (a.table.toList.map fun word => Text.Hex.literal 4 word.toNat) ++
  "" ::
  arrayLines "uint8_t sequence_transform_completions_data[COMPLETIONS_SIZE]" poolWidth
    (a.pool.toList.map fun byte => Text.Hex.literal 2 byte.toNat)

/-- The header. -/
def header (a : Artifact) : String :=
  String.join (a.headerLines.map (· ++ "\n"))

end Shorthand.Artifact
