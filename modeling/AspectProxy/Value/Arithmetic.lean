import AspectProxy.Machine.Error
import AspectProxy.Value.Json

/-!
Operators on values. Integer operations fail when their result does not fit; an integer beside a float
counts as the nearest float.
-/

namespace AspectProxy

/-- The power of two with an exponent that floats have. -/
def powerOfTwo (e : Int) : Float :=
  if e < -1022 then Float.ofBits (1 <<< (e + 1074).toNat.toUInt64)
  else Float.ofBits ((e + 1023).toNat.toUInt64 <<< 52)

/-- The remainder of a division toward zero, which is exact and has the sign of the dividend. -/
def floatRemainder (x y : Float) : Float :=
  if x.isNaN || y.isNaN || x.isInf || y == 0.0 then 0.0 / 0.0
  else if y.isInf then x
  else
    let p := BinaryParts.ofFloat x
    let q := BinaryParts.ofFloat y
    let e := min p.exponent q.exponent
    let r := (p.mantissa * Nat.pow 2 (p.exponent - e).toNat) % (q.mantissa * Nat.pow 2 (q.exponent - e).toNat)
    let magnitude := Float.ofNat r * powerOfTwo e
    if FloatStyle.isNegative x then -magnitude else magnitude

namespace Value

/-- An integer if it fits. -/
def checked (operation : String) (n : Int) : Except EvalError Value :=
  if fitsInt n then .ok (int (Int64.ofInt n)) else .error (.overflow operation)

/-- An operation on numbers. -/
def numeric (operation : String) (onInts : Int → Int → Int) (onFloats : Float → Float → Float) :
    Value → Value → Except EvalError Value
  | int a, int b => checked operation (onInts a.toInt b.toInt)
  | float a, float b => .ok (float (onFloats a b))
  | int a, float b => .ok (float (onFloats (toFloat a) b))
  | float a, int b => .ok (float (onFloats a (toFloat b)))
  | a, b => .error (.operands operation a.typeName b.typeName)

/-- The remainder toward zero; it counts as too great where the quotient is. -/
def remainder (a b : Int) : Int :=
  if fitsInt (a.tdiv b) then a.tmod b else a.tdiv b

/-- The order of two floats; none if one is no number. -/
def floatOrder (a b : Float) : Option Ordering :=
  if a < b then some .lt else if a == b then some .eq else if b < a then some .gt else none

/-- The order of two values that can be compared. -/
def order : Value → Value → Except EvalError (Option Ordering)
  | int a, int b => .ok (some (compare a.toInt b.toInt))
  | str a, str b => .ok (some (compare a b))
  | float a, float b => .ok (floatOrder a b)
  | int a, float b => .ok (floatOrder (toFloat a) b)
  | float a, int b => .ok (floatOrder a (toFloat b))
  | a, b => .error (.operands "compare" a.typeName b.typeName)

/-- Whether a comparison holds; none holds of a value that is no number. -/
def comparison (holds : Ordering → Bool) (a b : Value) : Except EvalError Value :=
  (order a b).map fun o => bool (o.any holds)

def isZero : Value → Bool
  | int n => n = 0
  | float x => x == 0.0
  | _ => false

def add : Value → Value → Except EvalError Value
  | str a, str b => .ok (str (a ++ b))
  | list a, list b => .ok (list (a ++ b))
  | a, b => numeric "add" (· + ·) (· + ·) a b

/-- A binary operator on the values of both operands. -/
def binary (op : BinaryOp) (a b : Value) : Except EvalError Value :=
  match op with
  | .add => add a b
  | .subtract => numeric "subtract" (· - ·) (· - ·) a b
  | .multiply => numeric "multiply" (· * ·) (· * ·) a b
  | .divide => if b.isZero then .error .divisionByZero else numeric "divide" Int.tdiv (· / ·) a b
  | .modulo => if b.isZero then .error .divisionByZero else numeric "modulo" remainder floatRemainder a b
  | .equal => .ok (bool (equal a b))
  | .notEqual => .ok (bool (!equal a b))
  | .less => comparison (· == .lt) a b
  | .lessEqual => comparison (· != .gt) a b
  | .greater => comparison (· == .gt) a b
  | .greaterEqual => comparison (· != .lt) a b
  | .and => .ok (bool (a.truthy && b.truthy))
  | .or => .ok (bool (a.truthy || b.truthy))

def unary : UnaryOp → Value → Except EvalError Value
  | .not, v => .ok (bool !v.truthy)
  | .negate, int n => checked "negation" (-n.toInt)
  | .negate, float x => .ok (float (-x))
  | .negate, v => .error (.operand "negation" "number" v.typeName)

/-- The position in a list that an index means. -/
def position? (i : Int64) (length : Nat) : Option Nat :=
  if 0 ≤ i.toInt ∧ i.toInt < length then some i.toInt.toNat else none

/-- `container[key]` -/
def index : Value → Value → Except EvalError Value
  | list items, int i =>
    match (position? i items.length).bind fun n => items[n]? with
    | some v => .ok v
    | none => .error (.indexOutOfBounds i items.length)
  | str s, int i =>
    match (position? i s.length).bind fun n => s.toList[n]? with
    | some c => .ok (str (String.singleton c))
    | none => .error (.indexOutOfBounds i s.length)
  | map entries, str key => .ok ((getEntry key entries).getD null)
  | container, key => .error (.operands "index" container.typeName key.typeName)

/-- The container with the value of a key replaced. -/
def setIndex (container key v : Value) : Except EvalError Value :=
  match container, key with
  | list items, int i =>
    match position? i items.length with
    | some n => .ok (list (items.set n v))
    | none => .error (.indexOutOfBounds i items.length)
  | map entries, str key => .ok (map (setEntry key v entries))
  | container, key => .error (.operands "index-assign" container.typeName key.typeName)

/-- What a loop over a value goes through. -/
def iterated : Value → Except EvalError (List Value)
  | list items => .ok items
  | map entries => .ok (entries.map fun (k, _) => str k)
  | str s => .ok (s.toList.map fun c => str (String.singleton c))
  | v => .error (.operand "for" "list, map or string" v.typeName)

end Value

end AspectProxy
