import Shorthand.Json.Number

/-!
# Tokens of JSON

A text is cut into tokens before it is understood. A token that is flawed is kept together with its
flaw, because whether the flaw counts depends on where the token stands: where no value may stand at
all, that is what is wrong, and where a value is skipped, some flaws are no matter.

The tokens end at the first flaw that hides where the token ends.
-/

namespace Shorthand.Json

/-- A word that is a value. -/
inductive Literal where
  | null
  | bool (b : Bool)
deriving DecidableEq, Repr

/-- A token. -/
inductive Token where
  | openBrace
  | closeBrace
  | openBracket
  | closeBracket
  | colon
  | comma
  -- A quoted text: what it says, and what is wrong with it if it is skipped.
  | text (read : Except Flaw String) (skipped : Except Flaw Unit)
  | number (read : Except NumeralFlaw Numeral)
  | literal (read : Except Flaw Literal)
  -- Something with which no token starts.
  | stray

/-- Reads the rest of a word. -/
def readWord : (word text : List Char) → Except Flaw (List Char)
  | [], rest => .ok rest
  | _ :: _, [] => .error .unfinished
  | w :: word, c :: text => if c = w then readWord word text else .error .malformed

namespace Token

/-- Whether a character may stand between tokens. -/
def isSpace (c : Char) : Bool :=
  c = ' ' || c = '\t' || c = '\n' || c = '\r'

/-- The token of a word that has begun. -/
def ofWord (value : Literal) (word text : List Char) : Token × List Char :=
  match readWord word text with
  | .ok rest => (literal (.ok value), rest)
  | .error flaw => (literal (.error flaw), [])

/-- The token of a quoted text whose opening quote precedes `rest`. -/
def ofQuoted (rest : List Char) : Token × List Char :=
  let read := (Quoted.read true rest).map fun (chars, _) => String.ofList chars
  match Quoted.read false rest with
  | .ok (_, rest) => (text read (.ok ()), rest)
  | .error flaw => (text read (.error flaw), [])

/-- The token of a number. -/
def ofNumeral (text : List Char) : Token × List Char :=
  match Numeral.read text with
  | .ok (n, rest) => (number (.ok n), rest)
  | .error flaw => (number (.error flaw), [])

/-- The token that starts with the character `c`, and the text after it. Nothing is left after a
token whose end is unknown. -/
def first (c : Char) (rest : List Char) : Token × List Char :=
  if c = '\x7b' then (openBrace, rest)
  else if c = '\x7d' then (closeBrace, rest)
  else if c = '[' then (openBracket, rest)
  else if c = ']' then (closeBracket, rest)
  else if c = ':' then (colon, rest)
  else if c = ',' then (comma, rest)
  else if c = '"' then ofQuoted rest
  else if c = 'n' then ofWord .null ['u', 'l', 'l'] rest
  else if c = 't' then ofWord (.bool true) ['r', 'u', 'e'] rest
  else if c = 'f' then ofWord (.bool false) ['a', 'l', 's', 'e'] rest
  else if c = '-' || c.isDigit then ofNumeral (c :: rest)
  else (stray, [])

end Token

/-- A token where it stands in a text. -/
structure Lexeme where
  token : Token
  /-- The text from the token on. -/
  here : List Char
  /-- The text after the token, which is empty if it is unknown where the token ends. -/
  rest : List Char

namespace Lexeme

/-- At most `count` tokens of a text. -/
def firsts : (count : Nat) → (text : List Char) → List Lexeme
  | 0, _ => []
  | _ + 1, [] => []
  | count + 1, c :: chars =>
    if Token.isSpace c then firsts count chars
    else
      let (token, rest) := Token.first c chars
      ⟨token, c :: chars, rest⟩ :: firsts count rest

/-- The tokens of a text. Each takes a character at least, so its length is enough. -/
def all (text : List Char) : List Lexeme :=
  firsts text.length text

end Lexeme

/-! ## Skipping values -/

/-- What encloses the place at which a text is read. -/
inductive Frame where
  | array
  | object
deriving DecidableEq, Repr

/-- What may stand at a place. -/
inductive Place where
  | value
  -- A value, or the end of an array.
  | firstItem
  | key
  -- A key, or the end of an object.
  | firstKey
  | colon
  -- A comma, or the end of what encloses the place.
  | separator
deriving DecidableEq, Repr

/-- The place after a token with which a skipped value starts, and what encloses it. -/
def skipStart (frames : List Frame) : Token → Except Flaw (Place × List Frame)
  | .text _ (.ok ()) => .ok (.separator, frames)
  | .text _ (.error flaw) => .error flaw
  | .number (.ok _) => .ok (.separator, frames)
  | .literal (.ok _) => .ok (.separator, frames)
  | .literal (.error flaw) => .error flaw
  | .openBracket => .ok (.firstItem, .array :: frames)
  | .openBrace => .ok (.firstKey, .object :: frames)
  | _ => .error .malformed

/-- The place after a token within a skipped value, and what encloses it. -/
def skipStep (place : Place) (frames : List Frame) (token : Token) :
    Except Flaw (Place × List Frame) :=
  match place, frames, token with
  | .value, _, _ => skipStart frames token
  | .firstItem, .array :: frames, .closeBracket => .ok (.separator, frames)
  | .firstItem, _, _ => skipStart frames token
  | .firstKey, .object :: frames, .closeBrace => .ok (.separator, frames)
  | .firstKey, _, .text _ skipped => skipped.map fun _ => (.colon, frames)
  | .key, _, .text _ skipped => skipped.map fun _ => (.colon, frames)
  | .colon, _, .colon => .ok (.value, frames)
  | .separator, .array :: _, .comma => .ok (.value, frames)
  | .separator, .array :: frames, .closeBracket => .ok (.separator, frames)
  | .separator, .object :: _, .comma => .ok (.key, frames)
  | .separator, .object :: frames, .closeBrace => .ok (.separator, frames)
  | _, _, _ => .error .malformed

end Shorthand.Json
