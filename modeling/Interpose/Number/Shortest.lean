import Interpose.Number.Parts

/-!
# The shortest decimal that reads back

A reader rounds a decimal to the nearest double, a half to the even mantissa. So the decimals that
read back as `m · 2 ^ q` fill an interval around it that reaches half way to each neighbour, ends
included exactly when `m` is even. `shortest` looks for the coarsest decimal grid with a point in
that interval, and on this grid takes the point nearest to the value.

A grid point in the interval is never more than one step from the value, or one of the two grid
neighbours of the value would be nearer and in the interval too; so per grid only these two
neighbours are tested. All arithmetic is on natural numbers over a common denominator.
-/

set_option autoImplicit false

namespace Interpose.Number

/-- The interval of the reals that round to a double, as fractions over one denominator. -/
structure Rounding where
  low : Nat
  value : Nat
  high : Nat
  denominator : Nat
  /-- The ends belong to the interval. -/
  closed : Bool
deriving Repr, DecidableEq

namespace Rounding

/-- The interval of `m · 2 ^ q`. Below a power of two the neighbour is twice as near, except at the
least exponent, where the numbers are evenly spaced. -/
def of (m : Nat) (q : Int) : Rounding :=
  let lower := if m = Nat.pow 2 52 ∧ Parts.minExponent < q then 1 else 2
  let up := Nat.pow 2 (q - 2).toNat
  { low := (4 * m - lower) * up
    value := 4 * m * up
    high := (4 * m + 2) * up
    denominator := Nat.pow 2 (2 - q).toNat
    closed := m % 2 = 0 }

/-- The same interval in units of `10 ^ scale`. -/
def inUnits (r : Rounding) (scale : Int) : Rounding :=
  let up := Nat.pow 10 (-scale).toNat
  { r with
    low := r.low * up
    value := r.value * up
    high := r.high * up
    denominator := r.denominator * Nat.pow 10 scale.toNat }

/-- The whole number `d` of units lies in the interval. -/
def contains (r : Rounding) (d : Nat) : Bool :=
  let point := d * r.denominator
  if r.closed then r.low ≤ point && point ≤ r.high else r.low < point && point < r.high

/-- The whole number of units in the interval that is nearest to the value, if there is one. Of two
equally near neighbours it is the larger. -/
def nearest? (r : Rounding) : Option Nat :=
  let below := r.value / r.denominator
  let rest := r.value % r.denominator
  match r.contains below, r.contains (below + 1) with
  | true, true => some (if r.denominator ≤ 2 * rest then below + 1 else below)
  | true, false => some below
  | false, true => some (below + 1)
  | false, false => none

end Rounding

/-- A decimal `digits · 10 ^ exponent`. -/
structure Decimal where
  digits : Nat
  exponent : Int
deriving Repr, DecidableEq

/-- The number `k` with `10 ^ (k - 1) ≤ v < 10 ^ k`, for the value `v` of the interval. Every
positive double is above `10 ^ (-324)`, so `v · 10 ^ 324` has at least one digit before the
point. -/
def Rounding.magnitude (r : Rounding) : Int :=
  (Nat.toDigits 10 (r.value * Nat.pow 10 324 / r.denominator)).length - 324

/-- The number without the zeros at its end, and how many there were. -/
def dropZeros : Nat → Nat → Nat × Nat
  | 0, d => (d, 0)
  | fuel + 1, d =>
    if d % 10 = 0 ∧ d ≠ 0 then
      let (d', n) := dropZeros fuel (d / 10)
      (d', n + 1)
    else (d, 0)

/-- The fewest digits whose decimal reads back as `m · 2 ^ q`, for `m` not zero. Seventeen digits
always suffice, so the search over the grids of one to seventeen digits finds a point. -/
def shortest (m : Nat) (q : Int) : Decimal :=
  let r := Rounding.of m q
  let k := r.magnitude
  let found := (List.range 17).findSome? fun n =>
    let scale := k - (n + 1 : Nat)
    ((r.inUnits scale).nearest?).map fun d => (⟨d, scale⟩ : Decimal)
  match found with
  | some ⟨d, scale⟩ => let (d', n) := dropZeros 17 d; ⟨d', scale + n⟩
  | none => ⟨0, 0⟩

/-- The smallest double is `5e-324`: its exact value `4.94…e-324` is nearer to five than to four. -/
example : shortest 1 (-1074) = ⟨5, -324⟩ := by decide +kernel

/-- One tenth needs one digit. -/
example : shortest 7205759403792794 (-56) = ⟨1, -1⟩ := by decide +kernel

/-- Ten to the sixteenth needs one digit. -/
example : shortest 5000000000000000 1 = ⟨1, 16⟩ := by decide +kernel

end Interpose.Number
