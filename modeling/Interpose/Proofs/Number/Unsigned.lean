import Mathlib
import Interpose.Number.Read

/-!
# Doubles without a sign

A number in a program text has no sign and is a number, so the double that it is read as is zero,
positive or infinite, and its sign bit is clear. Between such doubles the comparison of doubles is
equality, which it is not in general: the two zeros compare as equal, and what is not a number
differs from itself.
-/

set_option autoImplicit false

namespace Interpose.Number

open Float.Model Float.Model.UnpackedFloat

/-- A number whose sign bit is clear. -/
inductive Unsigned : UnpackedFloat → Prop
  | infinity : Unsigned (.infinity .positive)
  | zero : Unsigned (.zero .positive)
  | finite (m : Nat) (e : Int) (h : 0 < m) : Unsigned (.finite .positive m e h)

/-! ## Comparing -/

theorem Unsigned.beq_self {u : UnpackedFloat} (h : Unsigned u) : u.beq u = true := by
  cases h with
  | infinity => rfl
  | zero => rfl
  | finite m e h => simp [UnpackedFloat.beq, UnpackedFloat.compare]

theorem Unsigned.eq_of_beq {u u' : UnpackedFloat} (h : Unsigned u) (h' : Unsigned u')
    (heq : u.beq u' = true) : u = u' := by
  cases h with
  | infinity =>
    cases h' with
    | infinity => rfl
    | zero => cases heq
    | finite m e h => cases heq
  | zero =>
    cases h' with
    | infinity => cases heq
    | zero => rfl
    | finite m e h => cases heq
  | finite m e h =>
    cases h' with
    | infinity => cases heq
    | zero => cases heq
    | finite m' e' h' =>
      -- exponents are compared first, mantissas only if these are equal
      have hcompare : ((compare e e').then (compare m m')) = .eq := by
        simpa [UnpackedFloat.beq, UnpackedFloat.compare] using heq
      obtain ⟨he, hm⟩ := Ordering.then_eq_eq.1 hcompare
      obtain rfl := Int.compare_eq_eq.1 he
      obtain rfl := Nat.compare_eq_eq.1 hm
      rfl

/-! ## The fields of a bit pattern -/

abbrev Bits := BitVec Format.binary64.numBits

theorem toNat_mantissa (b : Bits) : (unpackMantissa b).toNat = b.toNat % 2 ^ 52 := by
  simp [unpackMantissa]

theorem toNat_exponent (b : Bits) : (unpackExponent b).toNat = b.toNat / 2 ^ 52 % 2 ^ 11 := by
  simp [unpackExponent, Nat.shiftRight_eq_div_pow]

theorem toNat_sign (b : Bits) : (unpackSign b).toNat = b.toNat / 2 ^ 63 % 2 := by
  simp [unpackSign, Nat.shiftRight_eq_div_pow]

theorem eq_of_fields {b b' : Bits} (hs : unpackSign b = unpackSign b')
    (he : unpackExponent b = unpackExponent b') (hm : unpackMantissa b = unpackMantissa b') :
    b = b' := by
  have hs := congrArg BitVec.toNat hs
  have he := congrArg BitVec.toNat he
  have hm := congrArg BitVec.toNat hm
  rw [toNat_sign, toNat_sign] at hs
  rw [toNat_exponent, toNat_exponent] at he
  rw [toNat_mantissa, toNat_mantissa] at hm
  apply BitVec.eq_of_toNat_eq
  have hlt : b.toNat < 2 ^ 64 := b.isLt
  have hlt' : b'.toNat < 2 ^ 64 := b'.isLt
  omega

/-- What a pattern is that stands for a number whose sign bit is clear. -/
theorem unsigned_unpack {b : Bits} (hs : unpackSign b = 0#1)
    (hm : unpackExponent b = -1#_ → unpackMantissa b = 0#_) :
    Unsigned (unpack Format.binary64 b) := by
  have hsign : Sign.ofBitVec (unpackSign b) = .positive := by
    rw [hs]
    rfl
  rw [UnpackedFloat.unpack]
  simp only [hsign]
  split
  · next he =>
    rw [if_pos (hm he)]
    exact .infinity
  · split
    · split
      · exact .zero
      · exact .finite _ _ _
    · exact .finite _ _ _

theorem sign_eq_zero {b : BitVec 1} (h : Sign.ofBitVec b = .positive) : b = 0#1 := by
  unfold Sign.ofBitVec at h
  split at h
  · assumption
  · cases h

theorem toNat_one_append (m : BitVec 52) : (1#1 ++ m).toNat = 2 ^ 52 + m.toNat := by
  rw [BitVec.toNat_append, ← Nat.shiftLeft_add_eq_or_of_lt m.isLt]
  rfl

/-- The fields of a pattern that stands for an infinity. -/
theorem fields_infinity {b : Bits} (h : unpack Format.binary64 b = .infinity .positive) :
    unpackSign b = 0#1 ∧ unpackExponent b = -1#_ ∧ unpackMantissa b = 0#_ := by
  rw [UnpackedFloat.unpack] at h
  dsimp only at h
  split at h
  · next he =>
    split at h
    · next hm => exact ⟨sign_eq_zero (UnpackedFloat.infinity.inj h), he, hm⟩
    · cases h
  · split at h
    · split at h
      · cases h
      · cases h
    · cases h

theorem fields_zero {b : Bits} (h : unpack Format.binary64 b = .zero .positive) :
    unpackSign b = 0#1 ∧ unpackExponent b = 0#_ ∧ unpackMantissa b = 0#_ := by
  rw [UnpackedFloat.unpack] at h
  dsimp only at h
  split at h
  · split at h
    · cases h
    · cases h
  · split at h
    · next he =>
      split at h
      · next hm => exact ⟨sign_eq_zero (UnpackedFloat.zero.inj h), he, hm⟩
      · cases h
    · cases h

/-- A finite number has an exponent field of zero, or its mantissa has the leading bit. -/
theorem fields_finite {b : Bits} {m : Nat} {e : Int} {hm : 0 < m}
    (h : unpack Format.binary64 b = .finite .positive m e hm) : unpackSign b = 0#1
      ∧ ((unpackExponent b).toNat = 0 ∧ m = (unpackMantissa b).toNat ∧ e = -1074
        ∨ (unpackExponent b).toNat ≠ 0 ∧ m = 2 ^ 52 + (unpackMantissa b).toNat
          ∧ e = (unpackExponent b).toNat - 1075) := by
  have hbias : (Format.binary64.exponentBias : Int) = 1023 := rfl
  rw [UnpackedFloat.unpack] at h
  dsimp only at h
  split at h
  · split at h
    · cases h
    · cases h
  · split at h
    · next he =>
      split at h
      · cases h
      · obtain ⟨hs, rfl, rfl⟩ := UnpackedFloat.finite.inj h
        have hzero : (unpackExponent b).toNat = 0 := by
          rw [he]
          rfl
        refine ⟨sign_eq_zero hs, .inl ⟨hzero, rfl, ?_⟩⟩
        rw [hzero, hbias]
        rfl
    · next he =>
      obtain ⟨hs, rfl, rfl⟩ := UnpackedFloat.finite.inj h
      refine ⟨sign_eq_zero hs, .inr ⟨fun hzero => he (BitVec.eq_of_toNat_eq hzero),
        toNat_one_append _, ?_⟩⟩
      rw [hbias]
      rfl

/-- Two patterns that stand for the same such number are the same. -/
theorem eq_of_unpack_eq {b b' : Bits} (h : Unsigned (unpack Format.binary64 b))
    (heq : unpack Format.binary64 b' = unpack Format.binary64 b) : b = b' := by
  generalize hu : unpack Format.binary64 b = u at h heq
  cases h with
  | infinity =>
    obtain ⟨hs, he, hm⟩ := fields_infinity hu
    obtain ⟨hs', he', hm'⟩ := fields_infinity heq
    exact eq_of_fields (hs.trans hs'.symm) (he.trans he'.symm) (hm.trans hm'.symm)
  | zero =>
    obtain ⟨hs, he, hm⟩ := fields_zero hu
    obtain ⟨hs', he', hm'⟩ := fields_zero heq
    exact eq_of_fields (hs.trans hs'.symm) (he.trans he'.symm) (hm.trans hm'.symm)
  | finite m e h =>
    obtain ⟨hs, hfields⟩ := fields_finite hu
    obtain ⟨hs', hfields'⟩ := fields_finite heq
    have hlt : (unpackMantissa b).toNat < 2 ^ 52 := (unpackMantissa b).isLt
    have hlt' : (unpackMantissa b').toNat < 2 ^ 52 := (unpackMantissa b').isLt
    apply eq_of_fields (hs.trans hs'.symm)
    · apply BitVec.eq_of_toNat_eq
      omega
    · apply BitVec.eq_of_toNat_eq
      omega

/-! ## Packing -/

theorem unpackSign_packComponents (e : BitVec 11) (m : BitVec 52) :
    unpackSign (packComponents Format.binary64 .positive e m) = 0#1 := by
  have he : e.toNat < 2 ^ 11 := e.isLt
  have hm : m.toNat < 2 ^ 52 := m.isLt
  have hhigh : (0#1 ++ e).toNat = e.toNat := by
    rw [BitVec.toNat_append, ← Nat.shiftLeft_add_eq_or_of_lt he]
    exact Nat.zero_add _
  have hall : (0#1 ++ e ++ m).toNat = e.toNat * 2 ^ 52 + m.toNat := by
    rw [BitVec.toNat_append, ← Nat.shiftLeft_add_eq_or_of_lt hm, hhigh, Nat.shiftLeft_eq]
  apply BitVec.eq_of_toNat_eq
  rw [toNat_sign]
  show (0#1 ++ e ++ m).toNat / 2 ^ 63 % 2 = 0
  omega

/-- Packing keeps the sign bit clear. -/
theorem Unsigned.unpack_pack {u : UnpackedFloat} (h : Unsigned u) :
    Unsigned (unpack Format.binary64 (UnpackedFloat.pack Format.binary64 u)) := by
  cases h with
  | infinity =>
    apply unsigned_unpack (unpackSign_packComponents _ _)
    intro _
    exact unpackMantissa_packComponents
  | zero =>
    apply unsigned_unpack (unpackSign_packComponents _ _)
    intro _
    exact unpackMantissa_packComponents
  | finite m e h =>
    rw [UnpackedFloat.pack]
    dsimp only
    split
    · apply unsigned_unpack (unpackSign_packComponents _ _)
      intro _
      exact unpackMantissa_packComponents
    · next hexp =>
      split
      · apply unsigned_unpack (unpackSign_packComponents _ _)
        intro he
        rw [unpackExponent_packComponents] at he
        -- with an exponent field of ones an infinity would have been packed
        have hones := congrArg BitVec.toNat he
        rw [BitVec.toNat_ofNat] at hones
        have hfield : (-1#11).toNat = 2047 := rfl
        rw [hfield] at hones
        have hlt : ¬2 ^ 11 ≤ _ + 1 := hexp
        omega
      · apply unsigned_unpack (unpackSign_packComponents _ _)
        intro he
        rw [unpackExponent_packComponents] at he
        cases he

/-! ## Doubles -/

/-- The double stands for a number whose sign bit is clear. -/
def IsUnsigned (x : Float) : Prop := Unsigned x.toModel.unpack

theorem IsUnsigned.beq_self {x : Float} (h : IsUnsigned x) : (x == x) = true := Unsigned.beq_self h

theorem IsUnsigned.eq_of_beq {x y : Float} (h : IsUnsigned x) (h' : IsUnsigned y)
    (heq : (x == y) = true) : x = y := by
  have hunpack := Unsigned.eq_of_beq h h' heq
  have hbits := eq_of_unpack_eq h hunpack.symm
  obtain ⟨⟨bits, valid⟩⟩ := x
  obtain ⟨⟨bits', valid'⟩⟩ := y
  obtain rfl : bits = bits' := UInt64.toBitVec_inj.1 hbits
  rfl

/-! ## The nearest double -/

theorem Unsigned.roundWithAccuracy (spec : Float.Model.Format) (m : Nat) (e : Int)
    (acc : Accuracy) : Unsigned (UnpackedFloat.roundWithAccuracy spec .positive m e acc) := by
  unfold UnpackedFloat.roundWithAccuracy
  dsimp only
  split
  · exact .zero
  · exact .finite _ _ _

theorem Unsigned.ofNat (spec : Float.Model.Format) (n : Nat) :
    Unsigned (UnpackedFloat.ofNat spec n) := by
  have hle : ¬compare (n : Int) 0 = .lt := by
    rw [Int.compare_eq_lt]
    omega
  unfold UnpackedFloat.ofNat UnpackedFloat.ofInt UnpackedFloat.normalize
  split
  · next h => exact absurd h hle
  · exact .zero
  · exact .roundWithAccuracy _ _ _ _

theorem Unsigned.mul (spec : Float.Model.Format) {u : UnpackedFloat} (h : Unsigned u)
    (m : Nat) (e : Int) (hm : 0 < m) :
    Unsigned (UnpackedFloat.mul spec u (.finite .positive m e hm)) := by
  cases h with
  | infinity => exact .infinity
  | zero => exact .zero
  | finite m' e' hm' => exact .roundWithAccuracy _ _ _ _

theorem Unsigned.div (spec : Float.Model.Format) {u : UnpackedFloat} (h : Unsigned u)
    (m : Nat) (e : Int) (hm : 0 < m) :
    Unsigned (UnpackedFloat.div spec u (.finite .positive m e hm)) := by
  cases h with
  | infinity => exact .infinity
  | zero => exact .zero
  | finite m' e' hm' => exact .roundWithAccuracy _ _ _ _

/-- A finite number whose sign bit is clear. -/
def isPositive : UnpackedFloat → Bool
  | .finite .positive _ _ _ => true
  | _ => false

theorem isPositive_power : ∀ i : Fin Float.exactlyRepresentablePowersOfTen.size,
    isPositive (Float.exactlyRepresentablePowersOfTen[i]).toModel.unpack = true := by decide

theorem eq_finite_of_isPositive {u : UnpackedFloat} (h : isPositive u = true) :
    ∃ m e hm, u = .finite .positive m e hm := by
  unfold isPositive at h
  split at h
  · next m e hm => exact ⟨m, e, hm, rfl⟩
  · cases h

theorem Unsigned.ofScientific (spec : Float.Model.Format) (m : Nat) (e : Int) :
    Unsigned (UnpackedFloat.ofScientific spec m e) := by
  unfold UnpackedFloat.ofScientific
  split
  · exact .zero
  · split
    · exact .infinity
    · split
      · exact .zero
      · split
        · exact .mul _ (.finite _ _ _) _ _ _
        · exact .div _ (.finite _ _ _) _ _ _

theorem isUnsigned_ofScientific (m : Nat) (s : Bool) (e : Nat) :
    IsUnsigned (Float.ofScientific m s e) := by
  unfold Float.ofScientific
  split
  · next h =>
    -- a short number is the quotient or the product with a power of ten from the table
    have hlt : e < Float.exactlyRepresentablePowersOfTen.size := Nat.lt_succ_of_le h.2
    obtain ⟨m', e', hm', hpower⟩ : ∃ m' e' hm',
        (Float.exactlyRepresentablePowersOfTen[e]).toModel.unpack = .finite .positive m' e' hm' :=
      eq_finite_of_isPositive (isPositive_power ⟨e, hlt⟩)
    have hwhole : IsUnsigned m.toUInt64.toFloat := (Unsigned.ofNat _ _).unpack_pack
    dsimp only
    split
    · show Unsigned (unpack _ (UnpackedFloat.pack _ (UnpackedFloat.div _ _ _)))
      apply Unsigned.unpack_pack
      rw [hpower]
      exact hwhole.div _ _ _ _
    · show Unsigned (unpack _ (UnpackedFloat.pack _ (UnpackedFloat.mul _ _ _)))
      apply Unsigned.unpack_pack
      rw [hpower]
      exact hwhole.mul _ _ _ _
  · exact (Unsigned.ofScientific _ _ _).unpack_pack

/-- **A number in a text is read as a number whose sign bit is clear.** -/
theorem isUnsigned_nearestDouble (m : Nat) (e : Int) : IsUnsigned (nearestDouble m e) := by
  have hzero : IsUnsigned 0.0 := isUnsigned_ofScientific 0 true 1
  have hinfinity : IsUnsigned (1.0 / 0.0) := by
    have hquotient : (1.0 / 0.0 : Float).toModel.unpack = .infinity .positive := by rfl
    rw [IsUnsigned, hquotient]
    exact .infinity
  unfold nearestDouble
  dsimp only
  split
  · exact hzero
  · split
    · exact hinfinity
    · split
      · exact hzero
      · exact isUnsigned_ofScientific _ _ _

end Interpose.Number
