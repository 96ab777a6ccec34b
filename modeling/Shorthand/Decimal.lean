/-!
# Shortest decimals

A floating point number is written with the fewest digits that read back as the same number, and of
those with the nearest. `Decimal.shortest?` finds the digits in exact arithmetic from the bits of the
number, and `Decimal.text` lays them out.
-/

namespace Shorthand

/-- A decimal: `digits` times ten to the power of `exponent`. -/
structure Decimal where
  /-- The digits, read as a number. -/
  digits : Nat
  exponent : Int
deriving DecidableEq, Repr

/-- The numbers that read back as a given one: those from `low` to `high`, as multiples of
`1 / unit`. The number itself is `mid`. -/
structure RoundingInterval where
  low : Nat
  mid : Nat
  high : Nat
  /-- The number of steps in one. -/
  unit : Nat
  /-- Whether the ends belong to the interval. -/
  closed : Bool

namespace RoundingInterval

/-- Whether a number of steps lies within. -/
def contains (i : RoundingInterval) (n : Nat) : Bool :=
  if i.closed then i.low ≤ n && n ≤ i.high else i.low < n && n < i.high

/-- The interval around `m * 2 ^ q`. Below a power of two the neighbours are twice as close. -/
def ofBinary (m : Nat) (q : Int) (atPower : Bool) : RoundingInterval :=
  -- quarters of the last binary place make both half gaps whole
  let scale := Nat.pow 2 (q - 2).toNat
  { low := (4 * m - if atPower then 1 else 2) * scale
    mid := 4 * m * scale
    high := (4 * m + 2) * scale
    unit := Nat.pow 2 (2 - q).toNat
    closed := m % 2 == 0 }

/-- The largest power of ten that is not above the number. -/
def magnitude (i : RoundingInterval) : Int :=
  if i.unit ≤ i.mid then (Nat.toDigits 10 (i.mid / i.unit)).length - 1
  else
    match (List.range 400).find? fun j => i.unit ≤ i.mid * Nat.pow 10 j with
    | some j => -j
    | none => 0

/-- The multiple of ten to the power of `e` nearest to the number, if one lies within. -/
def nearest? (i : RoundingInterval) (e : Int) : Option Decimal :=
  let i := { i with
    low := i.low * Nat.pow 10 (-e).toNat
    mid := i.mid * Nat.pow 10 (-e).toNat
    high := i.high * Nat.pow 10 (-e).toNat }
  let step := i.unit * Nat.pow 10 e.toNat
  let below := i.mid / step
  let nearBelow := 2 * (i.mid - below * step) < step ||
    (2 * (i.mid - below * step) == step && below % 2 == 0)
  match i.contains (below * step), i.contains ((below + 1) * step) with
  | true, true => some ⟨if nearBelow then below else below + 1, e⟩
  | true, false => some ⟨below, e⟩
  | false, true => some ⟨below + 1, e⟩
  | false, false => none

end RoundingInterval

namespace Decimal

/-- A decimal without zeros at its end. -/
def dropZeros : (fuel : Nat) → Decimal → Decimal
  | 0, d => d
  | fuel + 1, d =>
    if d.digits ≠ 0 ∧ d.digits % 10 = 0 then dropZeros fuel ⟨d.digits / 10, d.exponent + 1⟩ else d

/-- The shortest decimal that reads back as a finite number above zero, given by its bits. -/
def shortest? (bits : Nat) : Option Decimal :=
  let power : Nat := bits / Nat.pow 2 52 % 2048
  let fraction := bits % Nat.pow 2 52
  let i :=
    if power = 0 then RoundingInterval.ofBinary fraction (-1074) false
    else .ofBinary (Nat.pow 2 52 + fraction) ((power : Int) - 1075) (fraction = 0 && power ≠ 1)
  let top := i.magnitude
  ((List.range 17).findSome? fun (n : Nat) => i.nearest? (top - n)).map (dropZeros 17)

/-- The digits with a point after the first `places` of them, which may be none or all. -/
def positional (digits : List Char) (places : Int) : List Char :=
  if places ≤ 0 then '0' :: '.' :: (List.replicate (-places).toNat '0' ++ digits)
  else
    let whole := digits.take places.toNat
    let fraction := digits.drop places.toNat
    whole ++ List.replicate (places.toNat - whole.length) '0' ++
      '.' :: if fraction.isEmpty then ['0'] else fraction

/-- The digits with a point after the first, and the power of ten that makes up for it, which always
has a sign. -/
def scientific (digits : List Char) (places : Int) : List Char :=
  let fraction := digits.drop 1
  let power := places - 1
  digits.take 1 ++ (if fraction.isEmpty then [] else '.' :: fraction) ++
    'e' :: (if power < 0 then '-' else '+') :: Nat.toDigits 10 power.natAbs

/-- The text of a decimal: by position from 0.00001 up to below ten to the power of sixteen, and
otherwise with a power of ten. -/
def text (d : Decimal) : String :=
  let digits := Nat.toDigits 10 d.digits
  let places := digits.length + d.exponent
  String.ofList <|
    if -5 < places && places ≤ 16 then positional digits places else scientific digits places

example : text ⟨1, 15⟩ = "1000000000000000.0" := by cbv

example : text ⟨1, 16⟩ = "1e+16" := by cbv

example : text ⟨1, -5⟩ = "0.00001" := by cbv

example : text ⟨15, -7⟩ = "1.5e-6" := by cbv

/-- The text of a finite floating point number. -/
def ofFloat (x : Float) : String :=
  let bits := x.toBits.toNat
  let sign := if Nat.pow 2 63 ≤ bits then "-" else ""
  match shortest? (bits % Nat.pow 2 63) with
  | some d => if bits % Nat.pow 2 63 = 0 then sign ++ "0.0" else sign ++ d.text
  | none => sign ++ "0.0"

end Decimal

end Shorthand
