import Interpose.Number.Parts

/-!
# The remainder of two doubles

`remainder x y` is `x - n · y` for the quotient `n` truncated toward zero. With both numbers on the
smaller of the two scales it is the remainder of two natural numbers, so no rounding happens: the
result is below `y` and a multiple of the smaller unit, and a double represents it exactly.
-/

set_option autoImplicit false

namespace Interpose.Number

/-- The remainder on parts. The sign is the dividend's, also for a remainder of zero. -/
def Parts.remainder : Parts → Parts → Parts
  | .notANumber, _ | _, .notANumber | .infinite _, _ => .notANumber
  | .finite s m q, .infinite _ => .finite s m q
  | .finite s m q, .finite _ n p =>
    if n = 0 then .notANumber
    else
      let unit := min q p
      .finite s (m * Nat.pow 2 (q - unit).toNat % (n * Nat.pow 2 (p - unit).toNat)) unit

/-- The remainder of `x` by `y`. -/
def remainder (x y : Float) : Float := ((Parts.of x).remainder (Parts.of y)).toFloat

/-- Seven and a half leaves one and a half when divided by two. -/
example : Parts.remainder (.finite false 15 (-1)) (.finite true 1 1) = .finite false 3 (-1) := by
  decide

end Interpose.Number
