/-!
# Quoted texts of JSON

A quoted text is read character by character. `Quoted.State` says what may come next, which matters
within an escape and between the halves of a pair of surrogates.

Texts that are skipped are read with `paired := false`: their escapes have to be well formed, but
surrogates may stand alone.
-/

namespace Shorthand.Json

/-- What is wrong with a JSON text. -/
inductive Flaw where
  | unfinished
  -- It has something where it may not stand.
  | malformed
deriving DecidableEq, Repr

namespace Quoted

/-- Where the reading of a quoted text stands. -/
inductive State where
  | plain
  | escape
  -- Within an escape by number: the high surrogate before it, the number of digits to come and
  -- the value of those read.
  | number (high : Option Nat) (left value : Nat)
  | afterHigh (high : Nat)
  | lowEscape (high : Nat)
deriving DecidableEq, Repr

/-- The value of a hexadecimal digit of either case. -/
def hexValue? (c : Char) : Option Nat :=
  if '0' ≤ c && c ≤ '9' then some (c.toNat - '0'.toNat)
  else if 'a' ≤ c && c ≤ 'f' then some (c.toNat - 'a'.toNat + 10)
  else if 'A' ≤ c && c ≤ 'F' then some (c.toNat - 'A'.toNat + 10)
  else none

/-- The character of an escape with a letter. -/
def escaped? (c : Char) : Option Char :=
  if c = '"' || c = '\\' || c = '/' then some c
  else if c = 'b' then some '\x08'
  else if c = 'f' then some '\x0c'
  else if c = 'n' then some '\n'
  else if c = 'r' then some '\r'
  else if c = 't' then some '\t'
  else none

/-- Whether a number is that of a high surrogate. -/
def isHigh (n : Nat) : Bool := 0xD800 ≤ n && n ≤ 0xDBFF

/-- Whether a number is that of a low surrogate. -/
def isLow (n : Nat) : Bool := 0xDC00 ≤ n && n ≤ 0xDFFF

/-- The character and the state after an escape by number. A low surrogate has to follow a high
one. -/
def ofNumber (paired : Bool) (high : Option Nat) (n : Nat) : Except Flaw (Option Char × State) :=
  if !paired then .ok (some (Char.ofNat n), .plain)
  else
    match high with
    | some h =>
      if isLow n then .ok (some (Char.ofNat ((h - 0xD800) * 1024 + (n - 0xDC00) + 0x10000)), .plain)
      else .error .malformed
    | none =>
      if isLow n then .error .malformed
      else if isHigh n then .ok (none, .afterHigh n)
      else .ok (some (Char.ofNat n), .plain)

/-- Whether a text is long enough, in bytes, for the four digits of an escape. -/
def hasDigits (text : List Char) : Bool :=
  4 ≤ (String.ofList (text.take 4)).utf8ByteSize

/-- The character that ends with `c`, if any, and the state after it. The rest of the text is
consulted at the start of an escape by number. -/
def step (paired : Bool) (c : Char) (rest : List Char) : State → Except Flaw (Option Char × State)
  | .plain =>
    if c = '\\' then .ok (none, .escape)
    else if c.toNat < 0x20 then .error .malformed
    else .ok (some c, .plain)
  | .escape =>
    if c = 'u' then
      if hasDigits rest then .ok (none, .number none 4 0) else .error .unfinished
    else
      match escaped? c with
      | some c => .ok (some c, .plain)
      | none => .error .malformed
  | .number high left value =>
    match hexValue? c with
    | none => .error .malformed
    | some digit =>
      if left ≤ 1 then ofNumber paired high (value * 16 + digit)
      else .ok (none, .number high (left - 1) (value * 16 + digit))
  | .afterHigh high => if c = '\\' then .ok (none, .lowEscape high) else .error .malformed
  | .lowEscape high =>
    if c = 'u' then
      if hasDigits rest then .ok (none, .number (some high) 4 0) else .error .unfinished
    else .error .malformed

/-- The characters up to the closing quote, and what follows it. `before` holds those that are read
already, the latest first. -/
def readFrom (paired : Bool) (state : State) (before : List Char) :
    List Char → Except Flaw (List Char × List Char)
  | [] => .error .unfinished
  | c :: rest =>
    if c = '"' && state = .plain then .ok (before.reverse, rest)
    else
      match step paired c rest state with
      | .error flaw => .error flaw
      | .ok (some c, state) => readFrom paired state (c :: before) rest
      | .ok (none, state) => readFrom paired state before rest

/-- The quoted text whose opening quote precedes `text`, and what follows its closing quote. -/
def read (paired : Bool) (text : List Char) : Except Flaw (List Char × List Char) :=
  readFrom paired .plain [] text

end Quoted

end Shorthand.Json
