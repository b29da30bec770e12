import Interpose.Number.Shortest

/-!
# How a double is written

Two decisions make up a layout: which sizes are written with a point and which with an exponent, and
whether a whole number is written with all its digits or with the shortest ones that read back. A
number written with a point always has a digit on both sides of it.
-/

set_option autoImplicit false

namespace Interpose.Number

/-- A way to write doubles. -/
structure Layout where
  /-- `some (low, high)`: a number `v` with `10 ^ low ≤ v < 10 ^ high` is written with a point and
  every other one but zero with an exponent. `none`: all are written with a point. -/
  pointed : Option (Int × Int)
  /-- Whole numbers are written with all the digits of their exact value. -/
  wholeExact : Bool
deriving Repr, DecidableEq

/-- `count` zeros. -/
def zeros (count : Nat) : String := String.ofList (List.replicate count '0')

/-- A decimal with a point: the digits around the point, filled up with zeros. -/
def Decimal.pointed (d : Decimal) : String :=
  let ds := Nat.repr d.digits
  let places := (-d.exponent).toNat
  if places = 0 then s!"{ds}{zeros d.exponent.toNat}.0"
  else if places < ds.length then
    s!"{ds.take (ds.length - places)}.{ds.drop (ds.length - places)}"
  else s!"0.{zeros (places - ds.length)}{ds}"

/-- The exponent of the first digit. -/
def Decimal.leading (d : Decimal) : Int := (Nat.repr d.digits).length - 1 + d.exponent

/-- A decimal with an exponent: one digit before the point, and no point if there is only one. -/
def Decimal.scientific (d : Decimal) : String :=
  let ds := Nat.repr d.digits
  let tail := ds.drop 1
  let point := if tail.isEmpty then "" else "."
  s!"{ds.take 1}{point}{tail}e{d.leading}"

/-- The whole number `m · 2 ^ q`, if it is one. -/
def whole? (m : Nat) (q : Int) : Option Nat :=
  let unit := Nat.pow 2 q.natAbs
  if 0 ≤ q then some (m * unit)
  else if m % unit = 0 then some (m / unit) else none

namespace Layout

/-- The decimal is written with a point. -/
def showsPoint (layout : Layout) (d : Decimal) : Bool :=
  match layout.pointed with
  | none => true
  | some (low, high) => low ≤ d.leading && d.leading < high

/-- A magnitude `m · 2 ^ q` in this layout. -/
def magnitude (layout : Layout) (m : Nat) (q : Int) : String :=
  if m = 0 then "0.0"
  else
    match layout.wholeExact, whole? m q with
    | true, some n => s!"{n}.0"
    | _, _ =>
      let d := shortest m q
      if layout.showsPoint d then d.pointed else d.scientific

/-- The text of a double. A number that is none has no sign, and zero keeps its own. -/
def text (layout : Layout) (x : Float) : String :=
  match Parts.of x with
  | .notANumber => "NaN"
  | .infinite negative => if negative then "-inf" else "inf"
  | .finite negative m q => (if negative then "-" else "") ++ layout.magnitude m q

end Layout

end Interpose.Number
