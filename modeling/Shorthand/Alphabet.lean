import Shorthand.Text.Quoted

/-!
# Alphabets

An alphabet numbers the characters a dictionary may use. Letters, digits and punctuation have the
codes of the keys that type them; the word break has the code of the space key; and the *magic*
characters, which stand for keys of their own, are numbered upwards from `Alphabet.firstMagic`.

A character can be given in several of these roles. The roles are ranked: a letter is a letter
whatever else it is named as, the word break comes next, then the magic characters, of which the
last occurrence of a repeated one counts, and punctuation yields to all of them.

An alphabet also numbers the *output functions*, the characters that may end a correction.
-/

namespace Shorthand

/-- The number of a character in a table. -/
abbrev Code := UInt16

/-- Why settings give no alphabet. -/
inductive AlphabetError where
  | invalidWordbreak (text : String)
  | tooManyMagicChars (count : Nat)
  -- More output functions than a table entry can tell apart.
  | tooManyOutputFuncs (count : Nat)
deriving DecidableEq, Repr

/-- An alphabet, given by the characters that are free to choose. -/
structure Alphabet where
  /-- The magic characters, in the order of their codes. -/
  magicChars : List Char
  /-- The output function characters, numbered from one. -/
  outputFuncChars : List Char
  /-- The character that stands for a space. -/
  wordbreak : Char
  /-- The codes of the magic characters end below those of the shifted keys. -/
  length_magicChars_le : magicChars.length ≤ 256
  /-- The number of an output function fits into three bits. -/
  length_outputFuncChars_le : outputFuncChars.length ≤ 7
deriving Repr

namespace Alphabet

/-- The code of the letter `a`. -/
def firstLetter : Nat := 0x04

/-- The code of the word break. -/
def wordbreakKey : Nat := 0x2C

/-- The code of the first magic character. -/
def firstMagic : Nat := 0x0100

/-- The largest number of magic characters. -/
def maxMagicChars : Nat := 256

/-- The largest number of output functions. -/
def maxOutputFuncs : Nat := 7

/-- Neighbouring keys: characters with consecutive codes. -/
structure KeyRun where
  /-- The code of the first character. -/
  first : Nat
  /-- The characters, in the order of their codes. -/
  chars : List Char

/-- The keys of digits and punctuation. A shifted key has the code of the plain one plus `0x200`. -/
def punctuation : List KeyRun :=
  [⟨0x33, ";'`,./".toList⟩, ⟨0x233, ":\"~<>?".toList⟩, ⟨0x2D, "-=[]\\".toList⟩,
    ⟨0x22D, "_+\x7b\x7d|".toList⟩, ⟨0x1E, "1234567890".toList⟩, ⟨0x21E, "!@#$%^&*()".toList⟩]

/-- The code of a character within a run. -/
def KeyRun.key? (run : KeyRun) (c : Char) : Option Nat :=
  (run.chars.idxOf? c).map (run.first + ·)

/-- The character of a code within a run. -/
def KeyRun.char? (run : KeyRun) (key : Nat) : Option Char :=
  if run.first ≤ key then run.chars[key - run.first]? else none

/-- The position of the last occurrence of a character. -/
def lastIdxOf? (c : Char) (l : List Char) : Option Nat :=
  (l.reverse.idxOf? c).map (l.length - 1 - ·)

/-- Whether a character is one of the 26 letters that have keys. -/
def isLetter (c : Char) : Bool :=
  'a' ≤ c && c ≤ 'z'

/-- The number of a character, by the highest role it has. -/
def key? (a : Alphabet) (c : Char) : Option Nat :=
  if isLetter c then some (firstLetter + (c.toNat - 'a'.toNat))
  else if c = a.wordbreak then some wordbreakKey
  else
    match lastIdxOf? c a.magicChars with
    | some i => some (firstMagic + i)
    | none => punctuation.findSome? (·.key? c)

/-- The code of a character, if the alphabet has it. -/
def code? (a : Alphabet) (c : Char) : Option Code :=
  (a.key? c).map UInt16.ofNat

/-- Whether the alphabet has a character. -/
def contains (a : Alphabet) (c : Char) : Bool :=
  (a.code? c).isSome

/-- The only character that can have a given number. -/
def candidate? (a : Alphabet) (key : Nat) : Option Char :=
  if firstLetter ≤ key && key < firstLetter + 26 then
    some (Char.ofNat ('a'.toNat + (key - firstLetter)))
  else if key = wordbreakKey then some a.wordbreak
  else if firstMagic ≤ key && key < firstMagic + maxMagicChars then a.magicChars[key - firstMagic]?
  else punctuation.findSome? (·.char? key)

/-- The character that has a code. -/
def char? (a : Alphabet) (code : Code) : Option Char :=
  (a.candidate? code.toNat).filter fun c => a.code? c = some code

/-- The number of the output function that a character names, from one upwards. -/
def outputFunc? (a : Alphabet) (c : Char) : Option Nat :=
  (lastIdxOf? c a.outputFuncChars).map (· + 1)

/-- The character of a text that has to be one. -/
def wordbreakOf (text : String) : Except AlphabetError Char :=
  match text.toList with
  | [c] => .ok c
  | _ => .error (.invalidWordbreak text)

/-- The alphabet with the given magic characters, output functions and word break. -/
def ofStrings (magicChars outputFuncChars wordbreak : String) : Except AlphabetError Alphabet :=
  match wordbreakOf wordbreak with
  | .error e => .error e
  | .ok c =>
    if hm : magicChars.toList.length ≤ maxMagicChars then
      if hf : outputFuncChars.toList.length ≤ maxOutputFuncs then
        .ok ⟨magicChars.toList, outputFuncChars.toList, c, hm, hf⟩
      else .error (.tooManyOutputFuncs outputFuncChars.toList.length)
    else .error (.tooManyMagicChars magicChars.toList.length)

end Alphabet

/-- The text of an alphabet error. -/
def AlphabetError.message : AlphabetError → String
  | .invalidWordbreak text => s!"wordbreak_char must be exactly one character, got {Text.quote text}"
  | .tooManyMagicChars count =>
    s!"more than {Alphabet.maxMagicChars} ({count}) magic_chars were listed"
  | .tooManyOutputFuncs count =>
    s!"more than {Alphabet.maxOutputFuncs} ({count}) output_func_chars were listed"

end Shorthand
