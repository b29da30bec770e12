/-!
# Reading a double

A written number is an optional sign followed by digits with an optional point and an optional
exponent, or by one of the words `inf`, `infinity` and `nan` in any case. At least one digit stands
beside the point. The value is the nearest double, a half to the even mantissa.
-/

set_option autoImplicit false

namespace Interpose.Number

/-- One of the ten ASCII digits. -/
def isDigit (c : Char) : Bool := '0' ≤ c && c ≤ '9'

/-- The number that a run of digits stands for. -/
def digitsValue (cs : List Char) : Nat :=
  cs.foldl (fun n c => 10 * n + (c.toNat - '0'.toNat)) 0

/-- The double nearest to `m · 10 ^ e`. The largest double is below `10 ^ 309` and half of the
smallest above `10 ^ (-324)`, so far outside the answer is an infinity or zero whatever the digits
are. -/
def nearestDouble (m : Nat) (e : Int) : Float :=
  let size := (Nat.repr m).length + e
  if m = 0 then 0.0
  else if 400 < size then 1.0 / 0.0
  else if size < -400 then 0.0
  else Float.ofScientific m (e < 0) e.natAbs

/-- Digits with an optional point: the number of tenths' places and the number without its point. -/
def readMantissa? (cs : List Char) : Option (Nat × Nat × List Char) :=
  let before := cs.takeWhile isDigit
  let rest := cs.dropWhile isDigit
  let (places, rest) := match rest with
    | '.' :: r => (r.takeWhile isDigit, r.dropWhile isDigit)
    | r => ([], r)
  if before.isEmpty && places.isEmpty then none
  else some (digitsValue (before ++ places), places.length, rest)

/-- An optional exponent at the end of the text. -/
def readExponent? : List Char → Option Int
  | [] => some 0
  | c :: cs =>
    let (negative, ds) := match cs with
      | '-' :: r => (true, r)
      | '+' :: r => (false, r)
      | r => (false, r)
    if (c == 'e' || c == 'E') && !ds.isEmpty && ds.all isDigit then
      some (if negative then -(digitsValue ds : Int) else digitsValue ds)
    else none

/-- A number without its sign. -/
def readUnsigned? (cs : List Char) : Option Float :=
  match String.ofList (cs.map Char.toLower) with
  | "inf" | "infinity" => some (1.0 / 0.0)
  | "nan" => some (0.0 / 0.0)
  | _ => do
    let (m, places, rest) ← readMantissa? cs
    let e ← readExponent? rest
    return nearestDouble m (e - places)

/-- The double that a text stands for. -/
def readFloat? (s : String) : Option Float :=
  match s.toList with
  | '-' :: cs => (readUnsigned? cs).map (- ·)
  | '+' :: cs => readUnsigned? cs
  | cs => readUnsigned? cs

end Interpose.Number
