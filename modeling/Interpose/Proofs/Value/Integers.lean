import Mathlib.Data.Int.ModEq
import Mathlib.Data.Rat.Floor
import Interpose.Value.Primitive

/-!
# The operators on integers

Two laws govern the operators on integers. Sums, differences, products and negatives are exact up to
a multiple of `2 ^ 64`. Quotients and remainders are exact without such a reservation: where the
quotient of the exact integers fits, division with a remainder holds over the exact integers, and
where it does not fit, both operators trap.

That the quotient is the rational one, cut off toward zero, follows from the laws of division alone
and not from how the quotient is computed.
-/

set_option autoImplicit false

namespace Interpose

/-! ## Wrapping around -/

/-- The value is in the range of sixty-four bits, and differs from the integer by a multiple of `2 ^
64`. -/
structure Wraps (n : Int) (c : Int64) : Prop where
  least : -2 ^ 63 ≤ c.toInt
  greatest : c.toInt < 2 ^ 63
  residue : c.toInt ≡ n [ZMOD 2 ^ 64]

/-- A balanced remainder is the value that an integer wraps to. -/
theorem wraps_of_bmod {n : Int} {c : Int64} (h : c.toInt = n.bmod (2 ^ 64)) : Wraps n c where
  least := c.le_toInt
  greatest := c.toInt_lt
  residue := h ▸ Int.bmod_emod

/-! ## Division with a remainder -/

/-- The whole part of a rational number: what is behind the point is cut off. -/
def wholePart (x : ℚ) : Int := if 0 ≤ x then ⌊x⌋ else ⌈x⌉

/-- A whole number and a fraction on the same side of zero. -/
theorem wholePart_add {q : Int} {f : ℚ} (hf : |f| < 1) (hpos : 0 ≤ q + f → 0 ≤ f)
    (hneg : q + f ≤ 0 → f ≤ 0) : wholePart (q + f) = q := by
  obtain ⟨hlow, hhigh⟩ := abs_lt.1 hf
  unfold wholePart
  split
  · next h =>
    have hfloor : ⌊f⌋ = 0 := Int.floor_eq_zero_iff.2 ⟨hpos h, hhigh⟩
    rw [Int.floor_intCast_add, hfloor, add_zero]
  · next h =>
    have hceil : ⌈f⌉ = 0 := Int.ceil_eq_zero_iff.2 ⟨hlow, hneg (not_le.1 h).le⟩
    rw [Int.ceil_intCast_add, hceil, add_zero]

/-- `q` and `r` are quotient and remainder of exact integers, the remainder on the side of the
dividend. -/
structure Divides (a b q r : Int) : Prop where
  whole : a = q * b + r
  small : |r| < |b|
  side : r = 0 ∨ r.sign = a.sign

/-- The quotient that is rounded toward zero, with its remainder. -/
theorem divides_tdiv_tmod (a : Int) {b : Int} (hb : b ≠ 0) : Divides a b (a.tdiv b) (a.tmod b) where
  whole := (Int.tdiv_mul_add_tmod a b).symm
  small := by
    have hlt : a.natAbs % b.natAbs < b.natAbs := Nat.mod_lt _ (Int.natAbs_pos.2 hb)
    rw [Int.abs_eq_natAbs, Int.abs_eq_natAbs, Int.natAbs_tmod]
    exact_mod_cast hlt
  side := by
    by_cases hdvd : b ∣ a
    · exact .inl (Int.tmod_eq_zero_of_dvd hdvd)
    · exact .inr (by rw [Int.sign_tmod, if_neg hdvd])

namespace Divides

variable {a b q r : Int}

theorem divisor_ne_zero (h : Divides a b q r) : b ≠ 0 := by
  have hpos : 0 < |b| := (abs_nonneg r).trans_lt h.small
  exact abs_pos.1 hpos

theorem remainder_nonneg (h : Divides a b q r) (ha : 0 ≤ a) : 0 ≤ r := by
  rcases h.side with rfl | hsign
  · exact le_refl 0
  · exact Int.sign_nonneg_iff.1 (hsign ▸ Int.sign_nonneg_iff.2 ha)

theorem remainder_nonpos (h : Divides a b q r) (ha : a ≤ 0) : r ≤ 0 := by
  rcases h.side with rfl | hsign
  · exact le_refl 0
  · exact Int.sign_nonpos_iff.1 (hsign ▸ Int.sign_nonpos_iff.2 ha)

/-- The fraction that the remainder is of the divisor makes the rational quotient whole. -/
theorem rational (h : Divides a b q r) : (a : ℚ) / b = q + r / b := by
  have hb : (b : ℚ) ≠ 0 := Int.cast_ne_zero.2 h.divisor_ne_zero
  rw [h.whole]
  push_cast
  field_simp

/-- **The quotient is cut off toward zero.** The remainder is less than the divisor, so as a
fraction it is less than one, and with the sign of the dividend that fraction is on the side of the
rational quotient. -/
theorem quotient_eq (h : Divides a b q r) : q = wholePart ((a : ℚ) / b) := by
  have hb : (b : ℚ) ≠ 0 := Int.cast_ne_zero.2 h.divisor_ne_zero
  have hsmall : |(r : ℚ) / b| < 1 := by
    rw [abs_div, div_lt_one (abs_pos.2 hb)]
    exact_mod_cast h.small
  rw [h.rational]
  -- whether the quotient or the fraction, it is a question of the signs of its two parts
  refine (wholePart_add hsmall ?_ ?_).symm
  · rw [← h.rational, div_nonneg_iff, div_nonneg_iff]
    norm_cast
    exact Or.imp (And.imp_left h.remainder_nonneg) (And.imp_left h.remainder_nonpos)
  · rw [← h.rational, div_nonpos_iff, div_nonpos_iff]
    norm_cast
    exact Or.imp (And.imp_left h.remainder_nonneg) (And.imp_left h.remainder_nonpos)

end Divides

/-! ## Quotients that fit -/

/-- The pairs without a quotient, as exact integers. -/
theorem hasQuotient_eq_false {a b : Int64} :
    hasQuotient a b = false ↔ b.toInt = 0 ∨ (a.toInt = -2 ^ 63 ∧ b.toInt = -1) := by
  have hzero : b = 0 ↔ b.toInt = 0 := (Int64.toInt_inj (x := b) (y := 0)).symm
  have hleast : a = leastInt ↔ a.toInt = -2 ^ 63 := (Int64.toInt_inj (x := a) (y := leastInt)).symm
  have hone : b = -1 ↔ b.toInt = -1 := (Int64.toInt_inj (x := b) (y := -1)).symm
  simp only [hasQuotient, Bool.and_eq_false_iff, bne_eq_false_iff_eq, Bool.not_eq_false',
    Bool.and_eq_true, beq_iff_eq, hzero, hleast, hone]

/-- Quotient and remainder of values that have a quotient are those of the exact integers. -/
theorem divides_of_hasQuotient {a b : Int64} (h : hasQuotient a b = true) :
    Divides a.toInt b.toInt (a / b).toInt (a % b).toInt := by
  have hfits : ¬ (b.toInt = 0 ∨ (a.toInt = -2 ^ 63 ∧ b.toInt = -1)) := by
    rw [← hasQuotient_eq_false, h]
    exact Bool.noConfusion
  obtain ⟨hzero, hleast⟩ := not_or.1 hfits
  -- the one quotient of two values that is out of range is that of the least value and `-1`
  have hquotient : (a / b).toInt = a.toInt.tdiv b.toInt := by
    by_cases ha : a = Int64.minValue
    · refine Int64.toInt_div_of_ne_right a b fun hb => hleast ⟨?_, ?_⟩
      · rw [ha, Int64.toInt_minValue]
      · rw [hb]; rfl
    · exact Int64.toInt_div_of_ne_left a b ha
  rw [hquotient, Int64.toInt_mod]
  exact divides_tdiv_tmod _ hzero

/-! ## The operators -/

/-- **The operators on integers are those of arithmetic.** Sum, difference, product and negative
wrap around. Quotient and remainder are missing on the same pairs, and elsewhere divide the exact
integers, with the quotient rounded toward zero. Comparisons are exact. -/
theorem integer_operators_exact (a b : Int64) :
    (∃ c, BinaryOp.add.apply (.int a) (.int b) = .ok (.int c) ∧ Wraps (a.toInt + b.toInt) c)
      ∧ (∃ c, BinaryOp.sub.apply (.int a) (.int b) = .ok (.int c) ∧ Wraps (a.toInt - b.toInt) c)
      ∧ (∃ c, BinaryOp.mul.apply (.int a) (.int b) = .ok (.int c) ∧ Wraps (a.toInt * b.toInt) c)
      ∧ (∃ c, UnaryOp.neg.apply (.int a) = .ok (.int c) ∧ Wraps (-a.toInt) c)
      ∧ (if b.toInt = 0 ∨ (a.toInt = -2 ^ 63 ∧ b.toInt = -1) then
          BinaryOp.div.apply (.int a) (.int b) = .error .divisionByZero
            ∧ BinaryOp.rem.apply (.int a) (.int b) = .error .divisionByZero
        else
          ∃ q r, BinaryOp.div.apply (.int a) (.int b) = .ok (.int q)
            ∧ BinaryOp.rem.apply (.int a) (.int b) = .ok (.int r)
            ∧ Divides a.toInt b.toInt q.toInt r.toInt
            ∧ q.toInt = wholePart ((a.toInt : ℚ) / b.toInt))
      ∧ BinaryOp.lt.apply (.int a) (.int b) = .ok (.bool (a.toInt < b.toInt))
      ∧ BinaryOp.le.apply (.int a) (.int b) = .ok (.bool (a.toInt ≤ b.toInt))
      ∧ BinaryOp.gt.apply (.int a) (.int b) = .ok (.bool (a.toInt > b.toInt))
      ∧ BinaryOp.ge.apply (.int a) (.int b) = .ok (.bool (a.toInt ≥ b.toInt))
      ∧ BinaryOp.eq.apply (.int a) (.int b) = .ok (.bool (a.toInt = b.toInt))
      ∧ BinaryOp.ne.apply (.int a) (.int b) = .ok (.bool (a.toInt ≠ b.toInt)) := by
  simp only [BinaryOp.apply_int, BinaryOp.onInts]
  refine ⟨⟨a + b, rfl, wraps_of_bmod (Int64.toInt_add a b)⟩,
    ⟨a - b, rfl, wraps_of_bmod (Int64.toInt_sub a b)⟩, ⟨a * b, rfl,
      wraps_of_bmod (Int64.toInt_mul a b)⟩, ⟨-a, rfl, wraps_of_bmod (Int64.toInt_neg a)⟩, ?_, ?_⟩
  · split
    · next hnone =>
      have hquotient : hasQuotient a b = false := hasQuotient_eq_false.2 hnone
      simp [hquotient]
    · next hsome =>
      have hquotient : hasQuotient a b = true :=
        Bool.eq_true_of_not_eq_false fun h => hsome (hasQuotient_eq_false.1 h)
      have hdivides := divides_of_hasQuotient hquotient
      exact ⟨a / b, a % b, by rw [if_pos hquotient], by
        rw [if_pos hquotient], hdivides, hdivides.quotient_eq⟩
  · have heq : (a == b) = decide (a.toInt = b.toInt) := by
      rw [beq_eq_decide, decide_eq_decide, Int64.toInt_inj]
    refine ⟨?_, ?_, ?_, ?_, ?_, ?_⟩
    all_goals simp [Int64.lt_iff_toInt_lt, Int64.le_iff_toInt_le, heq]

/-- A quotient that does not fit is missed by the remainder too, although zero would fit. -/
example : BinaryOp.rem.apply (.int leastInt) (.int (-1)) = .error .divisionByZero := rfl

end Interpose
