import AspectProxy.Decimal

/-!
Reading the text of a binary64 value: digits with a point and a power of ten, or a name of infinity or of no
number in letters of any case, behind a sign.
-/

namespace AspectProxy

namespace Decimal

/-- The power of ten at the end of a number. -/
def powerOfText? : List Char → Option Int
  | [] => some 0
  | e :: cs =>
    let (negative, ds) := match cs with
      | '-' :: ds => (true, ds)
      | '+' :: ds => (false, ds)
      | ds => (false, ds)
    if e.toLower ≠ 'e' || ds.isEmpty || !ds.all Char.isDigit then none
    else some (if negative then -(digitsValue ds : Int) else digitsValue ds)

/-- A number without a sign. Digits may be missing on one side of the point. -/
def ofText? (cs : List Char) : Option Decimal :=
  let whole := cs.takeWhile Char.isDigit
  let (fraction, rest) := match cs.dropWhile Char.isDigit with
    | '.' :: ds => (ds.takeWhile Char.isDigit, ds.dropWhile Char.isDigit)
    | rest => ([], rest)
  if whole.isEmpty && fraction.isEmpty then none
  else (powerOfText? rest).map (ofParts whole fraction)

end Decimal

/-- The value of a text without a sign. -/
def magnitudeOfText? (cs : List Char) : Option Float :=
  let name := String.ofList (cs.map Char.toLower)
  if name = "inf" ∨ name = "infinity" then some (1.0 / 0.0)
  else if name = "nan" then some (0.0 / 0.0)
  else (Decimal.ofText? cs).map Decimal.toFloat

/-- The value of a text. -/
def floatOfText? (s : String) : Option Float :=
  match s.toList with
  | '-' :: cs => (magnitudeOfText? cs).map fun x => -x
  | '+' :: cs => magnitudeOfText? cs
  | cs => magnitudeOfText? cs

end AspectProxy
