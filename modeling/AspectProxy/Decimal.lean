/-!
Decimal numbers and binary64 values. A decimal is read as the nearest binary64 value; a finite
binary64 value is written with the fewest digits that read back to it and the nearest such decimal.
Which one counts when two are equally near, and how the digits are laid out, is a `FloatStyle`.
-/

namespace AspectProxy

/-- The value of a list of decimal digits, most significant first. -/
def digitsValue (ds : List Char) : Nat :=
  ds.foldl (fun n c => n * 10 + (c.toNat - '0'.toNat)) 0

/-- The decimal digits of a number, most significant first. -/
def decimalDigits (n : Nat) : List Char :=
  Nat.toDigits 10 n

/-- The number `digits · 10 ^ exponent`. -/
structure Decimal where
  digits : Nat
  exponent : Int
  deriving DecidableEq, Repr

namespace Decimal

/-- The number written with a whole part, a fraction and a power of ten. -/
def ofParts (whole fraction : List Char) (power : Int) : Decimal :=
  ⟨digitsValue (whole ++ fraction), power - fraction.length⟩

/-- The exponent of the power of ten just above the number: `10 ^ (point - 1) ≤ d < 10 ^ point`. -/
def point (d : Decimal) : Int :=
  (decimalDigits d.digits).length + d.exponent

/-- The nearest binary64 value. Everything from `10 ^ 310` on is infinite and everything below
`10 ^ -330` is zero, so the powers of ten that are computed stay small. -/
def toFloat (d : Decimal) : Float :=
  if d.digits = 0 then 0.0
  else if d.point > 311 then 1.0 / 0.0
  else if d.point < -330 then 0.0
  else Float.ofScientific d.digits (d.exponent < 0) d.exponent.natAbs

/-- The same number without trailing zeros in its digits. The fuel is the number of digits. -/
def trimZeros (d : Decimal) : Decimal :=
  go (decimalDigits d.digits).length d
where
  go : Nat → Decimal → Decimal
    | 0, d => d
    | fuel + 1, d =>
      if d.digits ≠ 0 ∧ d.digits % 10 = 0 then go fuel ⟨d.digits / 10, d.exponent + 1⟩ else d

end Decimal

/-- Which of two equally near numbers counts. -/
inductive Tie where
  | greater | even
  deriving DecidableEq, Repr

/-- Whether the lesser of two numbers counts, by its digits. -/
def Tie.prefersBelow : Tie → (digits : Nat) → Bool
  | greater, _ => false
  | even, digits => digits % 2 = 0

/-- A positive finite binary64 value as `mantissa · 2 ^ exponent`. -/
structure BinaryParts where
  mantissa : Nat
  exponent : Int
  deriving DecidableEq, Repr

namespace BinaryParts

/-- The parts of the magnitude of a finite value. -/
def ofFloat (x : Float) : BinaryParts :=
  let bits := x.toBits.toNat
  let fraction := bits % Nat.pow 2 52
  let power : Nat := bits / Nat.pow 2 52 % Nat.pow 2 11
  if power = 0 then ⟨fraction, -1074⟩ else ⟨Nat.pow 2 52 + fraction, Int.ofNat power - 1075⟩

def numerator (p : BinaryParts) : Nat :=
  p.mantissa * Nat.pow 2 p.exponent.toNat

def denominator (p : BinaryParts) : Nat :=
  Nat.pow 2 (-p.exponent).toNat

/-- The decimal that is exactly this number. -/
def exactDecimal (p : BinaryParts) : Decimal :=
  ⟨p.mantissa * Nat.pow 2 p.exponent.toNat * Nat.pow 5 (-p.exponent).toNat, min p.exponent 0⟩

/-- The exponent of the power of ten just above the number. -/
def point (p : BinaryParts) : Int :=
  let n := p.numerator
  let d := p.denominator
  if d ≤ n then (decimalDigits (n / d)).length
  else 1 - ((decimalDigits ((d + n - 1) / n - 1)).length : Int)

/-- Among the two neighbours of the number with `count` digits, those that `reads` accepts; the
nearer one if it accepts both. -/
def roundTo (p : BinaryParts) (tie : Tie) (reads : Decimal → Bool) (count : Nat) : Option Decimal :=
  let power := p.point - count
  let n := p.numerator * Nat.pow 10 (-power).toNat
  let d := p.denominator * Nat.pow 10 power.toNat
  let below : Decimal := ⟨n / d, power⟩
  let above : Decimal := ⟨n / d + 1, power⟩
  match reads below, reads above with
  | true, true =>
    let nearerBelow := 2 * (n % d) < d ∨ 2 * (n % d) = d ∧ tie.prefersBelow below.digits
    some (if nearerBelow then below else above)
  | true, false => some below
  | false, true => some above
  | false, false => none

end BinaryParts

/-- The shortest decimal that reads back to the magnitude of a finite value. Seventeen digits
always suffice; the exact decimal stands last so that the answer reads back in any case. -/
def Decimal.shortest (tie : Tie) (x : Float) : Decimal :=
  let p := BinaryParts.ofFloat x
  if p.mantissa = 0 then ⟨0, 0⟩
  else
    let magnitude := x.abs
    let found := (List.range 17).findSome? fun i =>
      p.roundTo tie (fun d => d.toFloat == magnitude) (i + 1)
    (found.getD p.exactDecimal).trimZeros

/-- How the digits of a binary64 value are laid out. -/
structure FloatStyle where
  /-- The least and greatest point of the numbers written without an exponent; all if absent. -/
  positional : Option (Int × Int)
  /-- Whether a whole number keeps `.0`. -/
  keepsPoint : Bool
  /-- Whether a plus stands in front of an exponent that is not negative. -/
  plusSign : Bool
  tie : Tie

namespace FloatStyle

/-- Values and source text: an exponent from `10 ^ 16` on and below `10 ^ -4`. -/
def source : FloatStyle := ⟨some (-3, 16), true, false, .greater⟩

/-- Messages: no exponent and no trailing `.0`. -/
def plain : FloatStyle := ⟨none, false, false, .greater⟩

/-- JSON text: an exponent with its sign from `10 ^ 16` on and below `10 ^ -5`; a tie goes to the even digit. -/
def json : FloatStyle := ⟨some (-4, 16), true, true, .even⟩

def isPositional (s : FloatStyle) (point : Int) : Bool :=
  match s.positional with
  | none => true
  | some (least, greatest) => least ≤ point && point ≤ greatest

/-- The digits with a point in them, filled up with zeros where the point lies outside. -/
def positionalText (s : FloatStyle) (digits : List Char) (point : Int) : List Char :=
  let zeros (n : Int) := List.replicate n.toNat '0'
  if point ≤ 0 then '0' :: '.' :: (zeros (-point) ++ digits)
  else if point < digits.length then digits.take point.toNat ++ '.' :: digits.drop point.toNat
  else digits ++ zeros (point - digits.length) ++ (if s.keepsPoint then ['.', '0'] else [])

/-- One digit, the rest behind a point, and the power of ten. -/
def exponentText (s : FloatStyle) (digits : List Char) (point : Int) : List Char :=
  let power := point - 1
  let fraction := if digits.length ≤ 1 then [] else '.' :: digits.drop 1
  let sign := if power < 0 then ['-'] else if s.plusSign then ['+'] else []
  digits.take 1 ++ fraction ++ 'e' :: sign ++ decimalDigits power.natAbs

/-- The text of a decimal that is not negative. -/
def decimalText (s : FloatStyle) (d : Decimal) : List Char :=
  if d.digits = 0 then '0' :: (if s.keepsPoint then ['.', '0'] else [])
  else
    let digits := decimalDigits d.digits
    if s.isPositional d.point then s.positionalText digits d.point
    else s.exponentText digits d.point

/-- The text of the magnitude of a finite value. -/
def magnitudeText (s : FloatStyle) (x : Float) : List Char :=
  s.decimalText (Decimal.shortest s.tie x)

/-- Whether the sign bit is set, for zero and NaN too. -/
def isNegative (x : Float) : Bool :=
  Nat.pow 2 63 ≤ x.toBits.toNat

/-- The text of any value. -/
def text (s : FloatStyle) (x : Float) : String :=
  if x.isNaN then "NaN"
  else
    let sign := if isNegative x then "-" else ""
    if x.isInf then sign ++ "inf" else sign ++ String.ofList (s.magnitudeText x)

end FloatStyle

end AspectProxy
