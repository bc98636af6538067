import Mathlib.Tactic.Ring
import TreeQuery.Number.Shortest

/-!
# What is read as a magnitude

`Magnitude.readsFrom` compares a number with the two ends of an interval, and
`Magnitude.nearest` rounds it.  Both agree: a number in the interval of a magnitude is
rounded to it (`nearest_of_readsFrom`).

Rounding goes to steps whose size depends on the number.  In the interval of a power
of two there are numbers below it, where the steps are half as long.  There the
quotient is rounded up to the first step that is too great for the shorter steps, and
that has the rank of the power of two.
-/

namespace TreeQuery

/-- A whole number is the rounding of every quotient that is less than a half away
from it.  An even one may be a half away. -/
theorem roundQuotient_even_eq {num den n : Nat} (hden : 0 < den)
    (hbelow : 2 * (n * den) ≤ 2 * num + den) (habove : 2 * num ≤ 2 * (n * den) + den)
    (hodd : n % 2 = 1 → 2 * (n * den) < 2 * num + den ∧ 2 * num < 2 * (n * den) + den) :
    roundQuotient .even num den = n := by
  have hnum : num = num / den * den + num % den := (Nat.div_add_mod' num den).symm
  have hrem : num % den < den := Nat.mod_lt num hden
  unfold roundQuotient
  dsimp only
  generalize num / den = below at hnum ⊢
  generalize num % den = rem at hnum hrem ⊢
  obtain rfl | rfl : n = below ∨ n = below + 1 := by
    have hle : n < below + 2 := by
      refine Nat.lt_of_mul_lt_mul_right (a := den) ?_
      rw [Nat.add_mul]
      omega
    have hge : below < n + 1 := by
      refine Nat.lt_of_mul_lt_mul_right (a := den) ?_
      rw [Nat.add_mul]
      omega
    omega
  · split
    · rfl
    · split
      · omega
      · omega
  · rw [Nat.add_mul] at hbelow habove hodd
    split
    · omega
    · split
      · rfl
      · omega

namespace Magnitude

/-! ## The parts of a magnitude -/

theorem rank_eq (m : Magnitude) : m.rank = m.exponent * 2 ^ 52 + m.significand := by
  simp only [significand, exponent, Nat.pow_eq]
  omega

theorem significand_lt (m : Magnitude) : m.significand < 2 ^ 53 := by
  simp only [significand, exponent, Nat.pow_eq]
  omega

/-- The steps are as short as they can be, given that the significand has its leading
bit. -/
theorem le_significand {m : Magnitude} (h : 0 < m.exponent) : 2 ^ 52 ≤ m.significand := by
  simp only [significand, exponent, Nat.pow_eq] at h ⊢
  omega

theorem exponent_le (m : Magnitude) : m.exponent ≤ 2045 := by
  have hrank := m.rank_lt
  simp only [rankLimit, exponent, Nat.pow_eq] at hrank ⊢
  omega

/-- A positive number of units has as many doublings of the step as leave the leading
bit in place. -/
theorem exponentAt_eq {num den exponent : Nat} (hden : 0 < den)
    (hleast : exponent = 0 ∨ 2 ^ 52 * (den * 2 ^ exponent) ≤ num)
    (hmost : num < 2 ^ 53 * (den * 2 ^ exponent)) : exponentAt (num / den) = exponent := by
  have hlt : num / den < 2 ^ (53 + exponent) := by
    rw [Nat.div_lt_iff_lt_mul hden, pow_add, mul_assoc, mul_comm _ den]
    exact hmost
  have hlog : (num / den).log2 < 53 + exponent := by
    by_cases hzero : num / den = 0
    · rw [hzero, Nat.log2_zero]
      omega
    · exact (Nat.log2_lt hzero).mpr hlt
  unfold exponentAt
  rcases hleast with rfl | hleast
  · omega
  · have hge : 2 ^ (52 + exponent) ≤ num / den := by
      rw [Nat.le_div_iff_mul_le hden, pow_add, mul_assoc, mul_comm _ den]
      exact hleast
    have hne : num / den ≠ 0 := by
      have hpos := Nat.two_pow_pos (52 + exponent)
      omega
    have hle := (Nat.le_log2 hne).mpr hge
    omega

/-! ## The interval of a magnitude -/

theorem readsFrom_eq_true {m : Magnitude} {num den : Nat} :
    m.readsFrom num den = true ↔ m.lowerEnd * den ≤ num ∧ num ≤ m.upperEnd * den
      ∧ (m.significand % 2 = 1 → m.lowerEnd * den < num ∧ num < m.upperEnd * den) := by
  unfold readsFrom
  split
  · simp only [Bool.and_eq_true, decide_eq_true_eq]
    omega
  · simp only [Bool.and_eq_true, decide_eq_true_eq]
    omega

theorem quarters_eq (m : Magnitude) : m.quarters = 4 * (m.significand * 2 ^ m.exponent) := rfl

theorem upperEnd_eq (m : Magnitude) : m.upperEnd = m.quarters + 2 * 2 ^ m.exponent := rfl

/-- The interval goes down by half a step at most. -/
theorem quarters_le_lowerEnd (m : Magnitude) : m.quarters ≤ m.lowerEnd + 2 * 2 ^ m.exponent := by
  simp only [lowerEnd, Nat.pow_eq]
  split <;> omega

/-- Above shorter steps it goes down by half of a shorter one. -/
theorem quarters_le_lowerEnd_of_power {m : Magnitude} (hpower : m.significand = 2 ^ 52)
    (hexponent : 0 < m.exponent) : m.quarters ≤ m.lowerEnd + 2 ^ m.exponent := by
  simp only [lowerEnd, Nat.pow_eq, hpower, hexponent, and_self, if_true]
  omega

/-- A number in the interval is at most half a step away.  At an odd significand it is
less than that away. -/
theorem near_of_readsFrom {m : Magnitude} {num den : Nat}
    (h : m.readsFrom (4 * num) den = true) :
    2 * (m.significand * (den * 2 ^ m.exponent)) ≤ 2 * num + den * 2 ^ m.exponent
      ∧ 2 * num ≤ 2 * (m.significand * (den * 2 ^ m.exponent)) + den * 2 ^ m.exponent
      ∧ (m.significand % 2 = 1 →
        2 * (m.significand * (den * 2 ^ m.exponent)) < 2 * num + den * 2 ^ m.exponent
          ∧ 2 * num < 2 * (m.significand * (den * 2 ^ m.exponent)) + den * 2 ^ m.exponent) := by
  obtain ⟨hlow, hhigh, hodd⟩ := readsFrom_eq_true.mp h
  have hquarters : m.quarters * den = 4 * (m.significand * (den * 2 ^ m.exponent)) := by
    rw [quarters_eq]
    ring
  have hlower : m.quarters * den ≤ m.lowerEnd * den + 2 * (den * 2 ^ m.exponent) := by
    calc m.quarters * den ≤ (m.lowerEnd + 2 * 2 ^ m.exponent) * den :=
          Nat.mul_le_mul_right den m.quarters_le_lowerEnd
      _ = m.lowerEnd * den + 2 * (den * 2 ^ m.exponent) := by ring
  have hupper : m.upperEnd * den = m.quarters * den + 2 * (den * 2 ^ m.exponent) := by
    rw [upperEnd_eq]
    ring
  omega

/-- The number of units is rounded to the rank of the magnitude. -/
theorem rank_of_readsFrom {m : Magnitude} {num den : Nat} (hden : 0 < den)
    (h : m.readsFrom (4 * num) den = true) :
    exponentAt (num / den) * 2 ^ 52
      + roundQuotient .even num (den * 2 ^ exponentAt (num / den)) = m.rank := by
  obtain ⟨hbelow, habove, hodd⟩ := near_of_readsFrom h
  have hstep : 0 < den * 2 ^ m.exponent := Nat.mul_pos hden (Nat.two_pow_pos _)
  by_cases hshort : 0 < m.exponent ∧ num < 2 ^ 52 * (den * 2 ^ m.exponent)
  · -- The number lies below a power of two, among the shorter steps.
    obtain ⟨hexponent, hnum⟩ := hshort
    have hpower : m.significand = 2 ^ 52 := by
      refine Nat.le_antisymm (Nat.le_of_not_lt fun hlt => ?_) (le_significand hexponent)
      have hmul := Nat.mul_le_mul_right (den * 2 ^ m.exponent) (Nat.succ_le_of_lt hlt)
      rw [Nat.succ_mul] at hmul
      omega
    obtain ⟨shorter, hshorter⟩ := Nat.exists_eq_add_one_of_ne_zero (Nat.ne_of_gt hexponent)
    have hdouble : den * 2 ^ m.exponent = 2 * (den * 2 ^ shorter) := by
      rw [hshorter]
      ring
    have hlow : 4 * (2 ^ 52 * (den * 2 ^ m.exponent)) ≤ 4 * num + den * 2 ^ m.exponent := by
      calc 4 * (2 ^ 52 * (den * 2 ^ m.exponent)) = m.quarters * den := by
            rw [quarters_eq, hpower]
            ring
        _ ≤ (m.lowerEnd + 2 ^ m.exponent) * den :=
            Nat.mul_le_mul_right den (quarters_le_lowerEnd_of_power hpower hexponent)
        _ = m.lowerEnd * den + den * 2 ^ m.exponent := by ring
        _ ≤ 4 * num + den * 2 ^ m.exponent :=
            Nat.add_le_add_right (readsFrom_eq_true.mp h).1 _
    have hat : exponentAt (num / den) = shorter :=
      exponentAt_eq hden (.inr (by omega)) (by omega)
    have hround : roundQuotient .even num (den * 2 ^ shorter) = 2 ^ 53 :=
      roundQuotient_even_eq (by omega) (by omega) (by omega) (by omega)
    rw [hat, hround, rank_eq, hpower, hshorter]
    omega
  · have hlt := Nat.mul_le_mul_right (den * 2 ^ m.exponent)
      (Nat.le_sub_one_of_lt m.significand_lt)
    have hat : exponentAt (num / den) = m.exponent :=
      exponentAt_eq hden (by omega) (by omega)
    rw [hat, roundQuotient_even_eq hstep hbelow habove hodd, rank_eq]

/-- Every number in the interval of a magnitude is rounded to it. -/
theorem nearest_of_readsFrom {m : Magnitude} {num den : Nat} (hden : 0 < den)
    (h : m.readsFrom (4 * (num * 2 ^ unitPlaces)) den = true) : nearest num den = some m := by
  have hrank := rank_of_readsFrom hden h
  simp only [nearest, Nat.pow_eq]
  simp only [hrank]
  exact dif_pos m.rank_lt

/-- Only the quotient counts. -/
theorem readsFrom_mul {m : Magnitude} {num den k : Nat} (hk : 0 < k)
    (h : m.readsFrom num den = true) : m.readsFrom (num * k) (den * k) = true := by
  obtain ⟨hlow, hhigh, hodd⟩ := readsFrom_eq_true.mp h
  rw [readsFrom_eq_true, ← mul_assoc, ← mul_assoc]
  refine ⟨Nat.mul_le_mul_right k hlow, Nat.mul_le_mul_right k hhigh, fun h => ?_⟩
  exact ⟨Nat.mul_lt_mul_of_pos_right (hodd h).1 hk, Nat.mul_lt_mul_of_pos_right (hodd h).2 hk⟩

end Magnitude

end TreeQuery
