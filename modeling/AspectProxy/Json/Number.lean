import AspectProxy.Json
import AspectProxy.Json.Read

/-!
Reading the numbers of JSON text. A number without fraction and exponent that fits 64 bits is an integer, and
any other number a float, read from its first digits that fit 64 bits. A number too great for a float is an
error.
-/

namespace AspectProxy.Json.Read

/-- The longest run of leading digits whose value fits 64 bits, and the digits left. -/
def significand (n : Nat) : List Char → Nat × List Char
  | [] => (n, [])
  | c :: cs =>
    let m := n * 10 + (c.toNat - '0'.toNat)
    if m < Nat.pow 2 64 then significand m cs else (n, c :: cs)

/-- `x / 10 ^ power`, by steps of at most `10 ^ 308`. -/
def divideByPower : Nat → Float → Nat → Float
  | 0, _, _ => 0.0
  | fuel + 1, x, power =>
    if power ≤ 308 then x / Float.ofScientific 1 false power
    else if x == 0.0 then x
    else divideByPower fuel (x / 1e308) (power - 308)

/-- A significand times a power of ten, rounded once for the significand and once for the power;
`none` if it is too great. -/
def scaled (n : Nat) (power : Int) : Option Float :=
  let x := Float.ofNat n
  if power < 0 then some (divideByPower 5 x power.natAbs)
  else if power ≤ 308 then
    let y := x * Float.ofScientific 1 false power.toNat
    if y.isInf then none else some y
  else if x == 0.0 then some x
  else none

/-- The value of a number that has a fraction or a power of ten, or whose digits do not fit 64
bits. Digits behind those that fit count only as powers of ten, in a fraction not even so. -/
def floatValue (whole fraction : List Char) (power : Int) : Option Float :=
  let (n, dropped) := significand 0 whole
  let (m, unread) := significand n fraction
  scaled m (power + dropped.length - ((fraction.length - unread.length : Nat) : Int))

/-- At least one digit; `atEnd` is wrong where the text ends. -/
def someDigits (atEnd : Flaw) : Read (List Char) := do
  let ds ← digits
  if ds.isEmpty then failNext (if (← peek).isNone then atEnd else .invalidNumber)
  return ds

/-- The digits of a whole number; a zero in front of others is none. -/
def wholeDigits (atEnd : Flaw) : Read (List Char) := do
  if ← eat '0' then
    if (← peek).any Char.isDigit then failNext .invalidNumber
    return ['0']
  else someDigits atEnd

/-- A power of ten as it is written. -/
structure PowerText where
  negative : Bool
  digits : List Char

def PowerText.value (p : PowerText) : Int :=
  if p.negative then -(digitsValue p.digits : Int) else digitsValue p.digits

def powerText (atEnd : Flaw) : Read PowerText := do
  let negative ← eat '-'
  unless negative do let _ ← eat '+'
  return ⟨negative, ← someDigits atEnd⟩

/-- A number as it is written. -/
structure NumberText where
  negative : Bool
  whole : List Char
  fraction : Option (List Char)
  power : Option PowerText

def numberText (atEnd : Flaw) : Read NumberText := do
  let negative ← eat '-'
  let whole ← wholeDigits atEnd
  let fraction ← if ← eat '.' then some <$> someDigits atEnd else pure none
  match ← peek with
  | some 'e' | some 'E' =>
    skip
    return ⟨negative, whole, fraction, some (← powerText atEnd)⟩
  | _ => return ⟨negative, whole, fraction, none⟩

namespace NumberText

def float? (t : NumberText) : Option Float :=
  floatValue t.whole (t.fraction.getD []) ((t.power.map PowerText.value).getD 0)

/-- The integer that a number is, if it is written as one and fits 64 bits. There is no negative zero among the
integers. -/
def integer? (t : NumberText) : Option Int :=
  let n := digitsValue t.whole
  if t.fraction.isSome || t.power.isSome then none
  else if t.negative then
    if n ≠ 0 ∧ n ≤ Nat.pow 2 63 then some (-(n : Int)) else none
  else if n < Nat.pow 2 64 then some n
  else none

end NumberText

/-- How many digits stand behind those that bring a number beyond 31 bits. -/
def digitsBeyond (n : Nat) : List Char → Nat
  | [] => 0
  | c :: cs =>
    let m := n * 10 + (c.toNat - '0'.toNat)
    if m < Nat.pow 2 31 then digitsBeyond m cs else cs.length

/-- A number that may be an integer or a float. One that is too great is seen to be so at its end, or where its
power of ten goes beyond 31 bits. -/
def number : Read Json := do
  let t ← numberText .endInValue
  match t.integer?, t.float? with
  | some n, _ => return .int n
  | none, some x => return .float (if t.negative then -x else x)
  | none, none => failBefore ((t.power.map fun p => digitsBeyond 0 p.digits).getD 0) .numberTooGreat

end AspectProxy.Json.Read
