import Mathlib.Tactic.Positivity
import TreeQuery.Proofs.Number.Shortest

/-!
# Numbers that are too great

A number is read as an infinity exactly when it reaches `overflowLeast`, which is half a
step above the greatest magnitude.  At that place there is a tie, and the greatest
significand is odd, so the tie goes up (`Binary64.isFinite_ofQuotient`).

The reader does not compute a power of ten that is far outside the range.  It is right not
to, since all such numbers are above the bound or all are below it
(`Binary64.isFinite_ofDecimal`).
-/

namespace TreeQuery

/-- The least number that is too great for a magnitude. -/
def overflowLeast : Nat := (2 ^ 54 - 1) * 2 ^ 970

/-- The decimal number is too great for a magnitude. -/
def Decimal.Overflows (d : Decimal) : Prop :=
  overflowLeast * 10 ^ (-d.exponent).toNat ≤ d.digits * 10 ^ d.exponent.toNat

theorem overflowLeast_pos : 0 < overflowLeast := by
  rw [overflowLeast]
  positivity

theorem overflowLeast_lt : overflowLeast < 10 ^ 400 := by
  have hpower : ∀ places, 54 + places < 3 * 400 → (2 ^ 54 - 1) * 2 ^ places < 10 ^ 400 := by
    intro places hplaces
    calc (2 ^ 54 - 1) * 2 ^ places < 2 ^ 54 * 2 ^ places :=
          Nat.mul_lt_mul_of_pos_right (by decide) (Nat.two_pow_pos places)
      _ = 2 ^ (54 + places) := (pow_add 2 54 places).symm
      _ < 10 ^ 400 := Magnitude.two_pow_lt_ten_pow hplaces
  exact hpower 970 (by decide)

/-- An integer of 64 bits is not too great. -/
theorem Decimal.not_overflows_int64 (n : Int64) : ¬Overflows ⟨n.toInt.natAbs, 0⟩ := by
  have hleast : ∀ places, 64 ≤ places → 2 ^ 64 ≤ (2 ^ 54 - 1) * 2 ^ places := by
    intro places hplaces
    calc 2 ^ 64 ≤ 2 ^ places := Nat.pow_le_pow_right (by decide) hplaces
      _ ≤ (2 ^ 54 - 1) * 2 ^ places := Nat.le_mul_of_pos_left _ (by decide)
  have hbound : 2 ^ 64 ≤ overflowLeast := hleast 970 (by decide)
  have hlow := n.minValue_le_toInt
  have hhigh := n.toInt_le
  have hmin : Int64.minValue.toInt = -2 ^ 63 := by decide
  have hmax : Int64.maxValue.toInt = 2 ^ 63 - 1 := by decide
  have habs : n.toInt.natAbs < 2 ^ 64 := by omega
  simp only [Overflows, Int.neg_zero, Int.toNat_zero, pow_zero, Nat.mul_one]
  omega

/-- What is rounded to an even number or to a greater one is less than half a step below. -/
theorem le_roundQuotient_even_iff (num : Nat) {den n : Nat} (hden : 0 < den)
    (heven : n % 2 = 0) :
    n ≤ roundQuotient .even num den ↔ 2 * (n * den) ≤ 2 * num + den := by
  have hbounds := roundQuotient_bounds .even num den
  have hnum : num = num / den * den + num % den := (Nat.div_add_mod' num den).symm
  have hrem : num % den < den := Nat.mod_lt num hden
  obtain habove | hnext | hfar : n ≤ num / den ∨ n = num / den + 1 ∨ num / den + 2 ≤ n := by omega
  · have hmul := Nat.mul_le_mul_right den habove
    exact ⟨fun _ => by omega, fun _ => by omega⟩
  · have hmul : n * den = num / den * den + den := by rw [hnext, Nat.succ_mul]
    unfold roundQuotient
    dsimp only
    split
    · omega
    · split
      · omega
      · omega
  · have hmul := Nat.mul_le_mul_right den hfar
    rw [Nat.add_mul] at hmul
    exact ⟨fun _ => by omega, fun _ => by omega⟩

namespace Magnitude

/-- The leading bit is in place after the doublings of the step. -/
theorem exponentAt_spec (num : Nat) {den : Nat} (hden : 0 < den) :
    num < 2 ^ 53 * (den * 2 ^ exponentAt (num / den))
      ∧ (exponentAt (num / den) = 0 ∨ 2 ^ 52 * (den * 2 ^ exponentAt (num / den)) ≤ num) := by
  have hmost : num < 2 ^ ((num / den).log2 + 1) * den :=
    (Nat.div_lt_iff_lt_mul hden).mp Nat.lt_log2_self
  by_cases hzero : exponentAt (num / den) = 0
  · refine ⟨?_, .inl hzero⟩
    have hle : (num / den).log2 + 1 ≤ 53 := by
      unfold exponentAt at hzero
      omega
    rw [hzero, pow_zero, Nat.mul_one]
    exact hmost.trans_le (Nat.mul_le_mul_right den (Nat.pow_le_pow_right (by decide) hle))
  · have hlog : (num / den).log2 = 52 + exponentAt (num / den) := by
      unfold exponentAt at hzero ⊢
      omega
    have hne : num / den ≠ 0 := by
      intro h
      rw [h, Nat.log2_zero] at hlog
      omega
    have hleast : 2 ^ (num / den).log2 * den ≤ num :=
      (Nat.le_div_iff_mul_le hden).mp (Nat.log2_self_le hne)
    rw [hlog] at hmost hleast
    generalize exponentAt (num / den) = exponent at hmost hleast
    refine ⟨?_, .inr ?_⟩
    · calc num < 2 ^ (52 + exponent + 1) * den := hmost
        _ = 2 ^ 53 * (den * 2 ^ exponent) := by ring
    · calc 2 ^ 52 * (den * 2 ^ exponent) = 2 ^ (52 + exponent) * den := by ring
        _ ≤ num := hleast

/-- A number of units is rounded to a rank below a run of ranks exactly when it is below
the half of the last step before that run. -/
theorem rank_lt_iff {num den top : Nat} (hden : 0 < den) :
    exponentAt (num / den) * 2 ^ 52
        + roundQuotient .even num (den * 2 ^ exponentAt (num / den)) < (top + 3) * 2 ^ 52
      ↔ num < (2 ^ 54 - 1) * (den * 2 ^ top) := by
  obtain ⟨hmost, hleast⟩ := exponentAt_spec num hden
  generalize exponentAt (num / den) = exponent at hmost hleast
  have hstep : 0 < den * 2 ^ exponent := Nat.mul_pos hden (Nat.two_pow_pos _)
  have htop : 0 < den * 2 ^ top := Nat.mul_pos hden (Nat.two_pow_pos _)
  have hbounds := roundQuotient_bounds .even num (den * 2 ^ exponent)
  have hbelow : num / (den * 2 ^ exponent) < 2 ^ 53 := (Nat.div_lt_iff_lt_mul hstep).mpr hmost
  obtain hlow | hat | hhigh : exponent ≤ top ∨ exponent = top + 1 ∨ top + 2 ≤ exponent := by omega
  · have hle : den * 2 ^ exponent ≤ den * 2 ^ top :=
      Nat.mul_le_mul_left den (Nat.pow_le_pow_right (by decide) hlow)
    exact ⟨fun _ => by omega, fun _ => by omega⟩
  · have hdouble : den * 2 ^ exponent = 2 * (den * 2 ^ top) := by
      rw [hat]
      ring
    have hround := le_roundQuotient_even_iff num hstep (n := 2 ^ 53) (by decide)
    rw [hdouble] at hround ⊢
    omega
  · have hquadruple : 4 * (den * 2 ^ top) ≤ den * 2 ^ exponent := by
      calc 4 * (den * 2 ^ top) = den * 2 ^ (top + 2) := by ring
        _ ≤ den * 2 ^ exponent :=
            Nat.mul_le_mul_left den (Nat.pow_le_pow_right (by decide) hhigh)
    have habove : 2 ^ 52 ≤ num / (den * 2 ^ exponent) :=
      (Nat.le_div_iff_mul_le hstep).mpr (hleast.resolve_left (by omega))
    exact ⟨fun _ => by omega, fun _ => by omega⟩

theorem nearest_isSome {num den : Nat} (hden : 0 < den) :
    (nearest num den).isSome = true ↔ num < overflowLeast * den := by
  have hunits : num * 2 ^ unitPlaces < (2 ^ 54 - 1) * (den * 2 ^ (970 + unitPlaces))
      ↔ num < overflowLeast * den := by
    have hmul : (2 ^ 54 - 1) * (den * 2 ^ (970 + unitPlaces))
        = overflowLeast * den * 2 ^ unitPlaces := by
      rw [overflowLeast]
      generalize 970 = places
      ring
    rw [hmul]
    exact Nat.mul_lt_mul_right (Nat.two_pow_pos _)
  rw [← hunits, ← rank_lt_iff hden]
  have htop : 970 + unitPlaces + 3 = 2047 := rfl
  rw [htop]
  unfold nearest rankLimit
  generalize unitPlaces = places
  dsimp only
  split
  · next h => exact iff_of_true rfl h
  · next h => exact iff_of_false Bool.false_ne_true h

end Magnitude

namespace Binary64

/-- A quotient is finite below the bound. -/
theorem isFinite_ofQuotient (negative : Bool) {num den : Nat} (hden : 0 < den) :
    (ofQuotient negative num den).isFinite = true ↔ num < overflowLeast * den := by
  rw [← Magnitude.nearest_isSome hden, ofQuotient]
  cases Magnitude.nearest num den with
  | none => simp [isFinite]
  | some m => simp [isFinite]

/-- A decimal number is finite unless it overflows. -/
theorem isFinite_ofDecimal (negative : Bool) (d : Decimal) :
    (ofDecimal negative d.digits d.exponent).isFinite = true ↔ ¬d.Overflows := by
  obtain ⟨digits, exponent⟩ := d
  have hlength := Magnitude.lt_pow_length digits
  simp only [Decimal.Overflows, Nat.not_le]
  unfold ofDecimal
  dsimp only
  split
  · next hsmall =>
    -- The number is zero, or its first digit is far behind the point.
    refine iff_of_true rfl ?_
    obtain rfl | hplaces := hsmall
    · rw [Nat.zero_mul]
      exact Nat.mul_pos overflowLeast_pos (Nat.pow_pos (by decide))
    · have hzero : exponent.toNat = 0 := by omega
      calc digits * 10 ^ exponent.toNat = digits := by rw [hzero, pow_zero, Nat.mul_one]
        _ < 10 ^ (Nat.toDigits 10 digits).length := hlength
        _ ≤ 10 ^ (-exponent).toNat := Nat.pow_le_pow_right (by decide) (by omega)
        _ ≤ overflowLeast * 10 ^ (-exponent).toNat := Nat.le_mul_of_pos_left _ overflowLeast_pos
  · next hnot =>
    obtain ⟨hdigits, -⟩ := not_or.mp hnot
    split
    · next hplaces =>
      refine iff_of_false Bool.false_ne_true (Nat.not_lt.mpr ?_)
      calc overflowLeast * 10 ^ (-exponent).toNat ≤ 10 ^ 400 * 10 ^ (-exponent).toNat :=
            Nat.mul_le_mul_right _ overflowLeast_lt.le
        _ = 10 ^ (400 + (-exponent).toNat) := (pow_add 10 400 _).symm
        _ ≤ 10 ^ ((Nat.toDigits 10 digits).length - 1 + exponent.toNat) :=
            Nat.pow_le_pow_right (by decide) (by omega)
        _ = 10 ^ ((Nat.toDigits 10 digits).length - 1) * 10 ^ exponent.toNat := pow_add 10 _ _
        _ ≤ digits * 10 ^ exponent.toNat :=
            Nat.mul_le_mul_right _ (Magnitude.pow_length_le (Nat.pos_of_ne_zero hdigits))
    · split
      · next hexponent =>
        have hzero : (-exponent).toNat = 0 := by omega
        rw [isFinite_ofQuotient negative Nat.one_pos, hzero, pow_zero, Nat.pow_eq]
      · next hexponent =>
        have hzero : exponent.toNat = 0 := by omega
        rw [Nat.pow_eq, isFinite_ofQuotient negative (Nat.pow_pos (by decide)), hzero, pow_zero,
          Nat.mul_one]

end Binary64

end TreeQuery
