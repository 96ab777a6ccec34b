import Shorthand.Decimal
import Shorthand.Json.Quoted

/-!
# Numbers of JSON

A number is first read as a `Numeral`, its parts as they are written, and then given a value: an
integer if it is written as one and fits into 64 bits, and else a floating point number.

The value of a floating point number is found by one multiplication or division by a power of ten, so
it can be off by a little. That is how the format of the settings defines it.
-/

namespace Shorthand.Json

/-- The value of a number. -/
inductive Number where
  | integer (n : Int)
  | floating (x : Float)

/-- The parts of a number. -/
structure Numeral where
  negative : Bool
  /-- The digits before the point. -/
  whole : List Char
  /-- The digits after the point, if there is one. -/
  fraction : Option (List Char)
  /-- Whether the power of ten is negative, and its digits, if there is one. -/
  exponent : Option (Bool × List Char)
deriving DecidableEq, Repr

/-- Why no number can be read. -/
inductive NumeralFlaw where
  -- A digit is missing at the end of the text.
  | atEnd
  -- A digit is missing within the text, or one stands after a leading zero.
  | invalid
deriving DecidableEq, Repr

namespace Numeral

/-- The digits at the start of a text, of which there has to be one, and the rest. -/
def digits (text : List Char) : Except NumeralFlaw (List Char × List Char) :=
  match text.span Char.isDigit with
  | ([], []) => .error .atEnd
  | ([], _ :: _) => .error .invalid
  | (ds, rest) => .ok (ds, rest)

/-- The part before the point. A zero stands alone. -/
def readWhole (text : List Char) : Except NumeralFlaw (List Char × List Char) :=
  match digits text with
  | .error flaw => .error flaw
  | .ok ('0' :: _ :: _, _) => .error .invalid
  | .ok result => .ok result

/-- The part after the point, if there is one. -/
def readFraction : (text : List Char) → Except NumeralFlaw (Option (List Char) × List Char)
  | '.' :: text => (digits text).map fun (ds, rest) => (some ds, rest)
  | text => .ok (none, text)

/-- The power of ten, if there is one. -/
def readExponent (text : List Char) : Except NumeralFlaw (Option (Bool × List Char) × List Char) :=
  match text with
  | c :: text =>
    if c = 'e' || c = 'E' then
      match text with
      | '-' :: text => (digits text).map fun (ds, rest) => (some (true, ds), rest)
      | '+' :: text => (digits text).map fun (ds, rest) => (some (false, ds), rest)
      | text => (digits text).map fun (ds, rest) => (some (false, ds), rest)
    else .ok (none, c :: text)
  | [] => .ok (none, [])

/-- The number at the start of a text, and the rest. -/
def read (text : List Char) : Except NumeralFlaw (Numeral × List Char) := do
  let (negative, text) :=
    match text with
    | '-' :: text => (true, text)
    | text => (false, text)
  let (whole, text) ← readWhole text
  let (fraction, text) ← readFraction text
  let (exponent, text) ← readExponent text
  return (⟨negative, whole, fraction, exponent⟩, text)

/-- The value of a digit. -/
def digitValue (c : Char) : Nat := c.toNat - '0'.toNat

/-- Appends digits to a number as long as it stays below two to the power of 64. The second component
is the number of digits left out. -/
def accumulate (n : Nat) : (digits : List Char) → Nat × Nat
  | [] => (n, 0)
  | c :: digits =>
    let next := n * 10 + digitValue c
    if next < Nat.pow 2 64 then accumulate next digits else (n, digits.length + 1)

/-- The integer that digits without point and power stand for, if it fits into 64 bits. A negative
zero does not count as an integer. -/
def integer? (negative : Bool) (whole : List Char) : Option Int :=
  let (n, left) := accumulate 0 whole
  if left ≠ 0 then none
  else if negative then if 0 < n ∧ n ≤ Nat.pow 2 63 then some (-n) else none
  else some n

/-- `x * 10 ^ e`, or none if that is out of range. Powers beyond the range of floating point
numbers are divided out step by step. -/
def scale? (fuel : Nat) (x : Float) (e : Int) : Option Float :=
  if 0 ≤ e then
    if e ≤ 308 then
      let y := x * Float.ofScientific 1 false e.toNat
      if y.isInf then none else some y
    else if x == 0.0 then some x
    else none
  else if -308 ≤ e then some (x / Float.ofScientific 1 false (-e).toNat)
  else if x == 0.0 then some x
  else
    match fuel with
    | 0 => some 0.0
    | fuel + 1 => scale? fuel (x / Float.ofScientific 1 false 308) (e + 308)

/-- The absolute value as a floating point number, or none if it is out of range. -/
def magnitude? (n : Numeral) : Option Float :=
  let (significand, dropped) := accumulate 0 n.whole
  let fraction := n.fraction.getD []
  let (significand, left) := accumulate significand fraction
  let shift : Int := dropped - (fraction.length - left : Nat)
  let x := Float.ofNat significand
  match n.exponent with
  | none => scale? 400 x shift
  | some (negative, ds) =>
    let power := ds.foldl (fun p c => p * 10 + digitValue c) 0
    if Nat.pow 2 31 ≤ power then
      if significand ≠ 0 ∧ !negative then none else some 0.0
    else scale? 400 x (if negative then shift - power else shift + power)

/-- The value of a number, or none if it is out of range. -/
def value? (n : Numeral) : Option Number :=
  let floating := n.magnitude?.map fun x => Number.floating (if n.negative then -x else x)
  match n.fraction, n.exponent with
  | none, none =>
    match integer? n.negative n.whole with
    | some i => some (.integer i)
    | none => floating
  | _, _ => floating

end Numeral

end Shorthand.Json
