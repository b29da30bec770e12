/-!
# A float in parts

A finite double is exactly `± m · 2 ^ q` for a natural number `m` and an integer `q`. `Parts.of`
reads the two fields of the bit pattern, and `Parts.toFloat` packs them again. The rest of the
folder computes on `m` and `q` in exact arithmetic and touches a float only through these two
functions.
-/

set_option autoImplicit false

namespace Interpose.Number

/-- What a double stands for: not a number, an infinity, or `± m · 2 ^ q`. -/
inductive Parts where
  | notANumber
  | infinite (negative : Bool)
  | finite (negative : Bool) (m : Nat) (q : Int)
deriving Repr, DecidableEq

namespace Parts

/-- The exponent of the last bit of the smallest doubles. -/
def minExponent : Int := -1074

/-- The parts of a bit pattern: one sign bit, eleven exponent bits, fifty-two fraction bits. An
exponent field of zero stands for the same scale as a field of one, without the leading bit. -/
def ofBits (bits : Nat) : Parts :=
  let negative := bits / Nat.pow 2 63 % 2 == 1
  let field := bits / Nat.pow 2 52 % Nat.pow 2 11
  let fraction := bits % Nat.pow 2 52
  if field = 2047 then
    if fraction = 0 then .infinite negative else .notANumber
  else if field = 0 then .finite negative fraction minExponent
  else .finite negative (Nat.pow 2 52 + fraction) (minExponent + (field - 1 : Nat))

/-- The parts of a double. -/
def of (x : Float) : Parts := ofBits x.toBits.toNat

/-- The bit pattern of `± m · 2 ^ q`, for a value that a double represents exactly. The mantissa is
moved to the exponent at which it has fifty-three bits, or to the least exponent if that is larger;
moving it down loses nothing because the value is representable. -/
def finiteBits (negative : Bool) (m : Nat) (q : Int) : Nat :=
  let sign := if negative then Nat.pow 2 63 else 0
  if m = 0 then sign
  else
    let scale := max (q + m.log2 - 52) minExponent
    let shifted :=
      if scale ≤ q then m * Nat.pow 2 (q - scale).toNat else m / Nat.pow 2 (scale - q).toNat
    if shifted < Nat.pow 2 52 then sign + shifted
    else sign + (scale - minExponent + 1).toNat * Nat.pow 2 52 + (shifted - Nat.pow 2 52)

/-- The double with these parts. -/
def toFloat : Parts → Float
  | .notANumber => Float.ofBits 0x7FF8000000000000
  | .infinite false => Float.ofBits 0x7FF0000000000000
  | .infinite true => Float.ofBits 0xFFF0000000000000
  | .finite negative m q => Float.ofBits (UInt64.ofNat (finiteBits negative m q))

/-- The parts of one and a half: `3 · 2 ^ 51` scaled down by fifty-two bits. -/
example : ofBits 0x3FF8000000000000 = .finite false (3 * Nat.pow 2 51) (-52) := by decide

/-- Packing finds the same pattern from any scale. -/
example : finiteBits false 3 (-1) = 0x3FF8000000000000 := by decide

example : finiteBits true 5 minExponent = 0x8000000000000005 := by decide

end Parts

end Interpose.Number
