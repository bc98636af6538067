import Mathlib.Tactic.Positivity
import TreeQuery.Proofs.Number.Nearest

/-!
# Decimal numbers that read back

The search over the grids ends with a decimal number in the interval of the magnitude
(`covers_shortest`), whether a grid has such a point or all digits are written.  And a
decimal number in the interval is read as the magnitude (`ofDecimal_of_covers`).  It is
never so long or so short that the reader gives up on its power of ten.

That the digits are the fewest possible is not needed for this.
-/

namespace TreeQuery.Magnitude

/-- The decimal number is in the interval of the magnitude. -/
def Covers (m : Magnitude) (d : Decimal) : Prop :=
  m.readsFrom (d.digits * (gridStep d.exponent).1) (gridStep d.exponent).2 = true

/-! ## The search -/

theorem covers_of_gridPoint? {tie : Tie} {m : Magnitude} {power : Int} {digits : Nat}
    (h : m.gridPoint? tie power = some digits) : m.Covers ⟨digits, power⟩ := by
  unfold Covers
  unfold gridPoint? at h
  dsimp only at h ⊢
  split at h
  · next hbelow habove =>
    -- Both neighbours are in the interval, and the digits are those of the nearer one.
    have hbounds := roundQuotient_bounds tie (m.quarters * (gridStep power).2) (gridStep power).1
    have hdigits := Option.some.inj h
    obtain heq | heq : digits = m.quarters * (gridStep power).2 / (gridStep power).1
        ∨ digits = m.quarters * (gridStep power).2 / (gridStep power).1 + 1 := by omega
    · rw [heq]
      exact hbelow
    · rw [heq]
      exact habove
  · next hbelow _ =>
    rw [← Option.some.inj h]
    exact hbelow
  · next _ habove =>
    rw [← Option.some.inj h]
    exact habove
  · cases h

/-- The magnitude is in its own interval. -/
theorem readsFrom_quarters (m : Magnitude) {den : Nat} (hden : 0 < den) :
    m.readsFrom (m.quarters * den) den = true := by
  have hstep := Nat.two_pow_pos m.exponent
  have hlower : m.lowerEnd ≤ m.quarters - 2 ^ m.exponent := by
    simp only [lowerEnd, Nat.pow_eq]
    split <;> omega
  have hodd : m.significand % 2 = 1 → 2 ^ m.exponent ≤ m.quarters := by
    intro h
    have hmul := Nat.mul_le_mul_right (2 ^ m.exponent) (show 1 ≤ m.significand by omega)
    rw [quarters_eq]
    omega
  have hone : m.readsFrom m.quarters 1 = true := by
    rw [readsFrom_eq_true, upperEnd_eq]
    omega
  simpa using readsFrom_mul hden hone

/-- All digits of the magnitude stand for it exactly. -/
theorem covers_all_digits (m : Magnitude) :
    m.Covers ⟨m.units * Nat.pow 5 unitPlaces, -unitPlaces⟩ := by
  simp only [Covers, gridStep, Nat.pow_eq]
  generalize unitPlaces = places
  have hpos : (-(places : Int)).toNat = 0 := by omega
  have hneg : (- -(places : Int)).toNat = places := by omega
  have hten : 10 ^ places = 2 ^ places * 5 ^ places := by rw [← Nat.mul_pow]
  have hnum : m.units * 5 ^ places * (4 * 2 ^ places * 10 ^ 0) = m.quarters * 10 ^ places := by
    rw [hten, quarters]
    ring
  rw [hpos, hneg, hnum]
  exact m.readsFrom_quarters (Nat.pow_pos (by decide))

theorem covers_searchGrids (tie : Tie) (m : Magnitude) (fuel : Nat) (power : Int) :
    m.Covers (m.searchGrids tie fuel power) := by
  induction fuel generalizing power with
  | zero =>
      rw [searchGrids]
      exact m.covers_all_digits
  | succ fuel ih =>
      rw [searchGrids]
      split
      · next digits hpoint => exact covers_of_gridPoint? hpoint
      · exact ih (power - 1)

/-- What is written is in the interval. -/
theorem covers_shortest (tie : Tie) (m : Magnitude) : m.Covers (m.shortest tie) :=
  covers_searchGrids tie m 20 m.coarsePower

/-! ## The reader -/

theorem lowerEnd_pos {m : Magnitude} (h : 0 < m.rank) : 0 < m.lowerEnd := by
  have hsignificand : 1 ≤ m.significand := by
    have hrank := m.rank_eq
    by_cases hexponent : 0 < m.exponent
    · have hle := le_significand hexponent
      omega
    · omega
  have hmul := Nat.mul_le_mul_right (2 ^ m.exponent) hsignificand
  have hstep := Nat.two_pow_pos m.exponent
  have hlower := m.quarters_le_lowerEnd
  rw [quarters_eq] at hlower
  omega

theorem two_pow_lt_ten_pow {places bound : Nat} (h : places < 3 * bound) :
    2 ^ places < 10 ^ bound := by
  calc 2 ^ places < 2 ^ (3 * bound) := Nat.pow_lt_pow_right (by decide) h
    _ = (2 ^ 3) ^ bound := by rw [pow_mul]
    _ ≤ 10 ^ bound := Nat.pow_le_pow_left (by decide) bound

theorem upperEnd_lt (m : Magnitude) : m.upperEnd < 2 ^ (m.exponent + 55) := by
  have hmul := Nat.mul_le_mul_right (2 ^ m.exponent) (Nat.succ_le_of_lt m.significand_lt)
  have hstep := Nat.two_pow_pos m.exponent
  rw [Nat.succ_mul] at hmul
  rw [upperEnd_eq, quarters_eq, pow_add]
  omega

/-- The interval, with the power of ten on the side of the digits or of the ends. -/
theorem covers_iff {m : Magnitude} {d : Decimal} : m.Covers d
    ↔ m.readsFrom (4 * (d.digits * 10 ^ d.exponent.toNat * 2 ^ unitPlaces))
      (10 ^ (-d.exponent).toNat) = true := by
  simp only [Covers, gridStep, Nat.pow_eq]
  generalize unitPlaces = places
  have hnum : d.digits * (4 * 2 ^ places * 10 ^ d.exponent.toNat)
      = 4 * (d.digits * 10 ^ d.exponent.toNat * 2 ^ places) := by ring
  rw [hnum]

theorem lt_pow_length (n : Nat) : n < 10 ^ (Nat.toDigits 10 n).length :=
  (Nat.length_toDigits_le_iff (by decide) Nat.length_toDigits_pos).mp (Nat.le_refl _)

theorem pow_length_le {n : Nat} (h : 0 < n) : 10 ^ ((Nat.toDigits 10 n).length - 1) ≤ n := by
  by_cases hone : (Nat.toDigits 10 n).length - 1 = 0
  · rw [hone]
    exact h
  · refine Nat.le_of_not_lt fun hlt => ?_
    have hle := (Nat.length_toDigits_le_iff (by decide) (Nat.pos_of_ne_zero hone)).mpr hlt
    omega

/-- The first digit is near the point, at a distance that bounds both the greatest
magnitudes and the unit. -/
theorem places_of_covers {m : Magnitude} {d : Decimal} {bound : Nat}
    (hunit : unitPlaces + 2 < 3 * bound) (hgreatest : m.exponent + 55 < 3 * bound + unitPlaces + 2)
    (hrank : 0 < m.rank) (h : m.Covers d) :
    0 < d.digits ∧ -bound ≤ ((Nat.toDigits 10 d.digits).length : Int) + d.exponent
      ∧ ((Nat.toDigits 10 d.digits).length : Int) + d.exponent ≤ bound := by
  obtain ⟨hlow, hhigh, -⟩ := readsFrom_eq_true.mp (covers_iff.mp h)
  have hsmall : 4 * 2 ^ unitPlaces < 10 ^ bound := by
    have hlt := two_pow_lt_ten_pow hunit
    rw [pow_add] at hlt
    omega
  have hgreat : m.upperEnd < 10 ^ bound * (4 * 2 ^ unitPlaces) := by
    calc m.upperEnd < 2 ^ (m.exponent + 55) := m.upperEnd_lt
      _ ≤ 2 ^ (3 * bound - 1 + (unitPlaces + 2)) :=
          Nat.pow_le_pow_right (by decide) (by omega)
      _ = 2 ^ (3 * bound - 1) * (4 * 2 ^ unitPlaces) := by ring
      _ ≤ 10 ^ bound * (4 * 2 ^ unitPlaces) :=
          Nat.mul_le_mul_right _ (two_pow_lt_ten_pow (by omega)).le
  have hleast := lowerEnd_pos hrank
  have hlength := lt_pow_length d.digits
  have hdigits : 0 < d.digits := by
    refine Nat.pos_of_ne_zero fun hzero => ?_
    rw [hzero, Nat.zero_mul, Nat.zero_mul, Nat.mul_zero, Nat.le_zero] at hlow
    exact absurd hlow (Nat.mul_pos hleast (Nat.pow_pos (by decide))).ne'
  have hfirst := pow_length_le hdigits
  generalize 2 ^ unitPlaces = unit at hlow hhigh hsmall hgreat
  generalize (Nat.toDigits 10 d.digits).length = length at hlength hfirst ⊢
  refine ⟨hdigits, ?_, ?_⟩
  · have hpow : 10 ^ (-d.exponent).toNat < 10 ^ (length + d.exponent.toNat + bound) := by
      calc 10 ^ (-d.exponent).toNat ≤ m.lowerEnd * 10 ^ (-d.exponent).toNat :=
            Nat.le_mul_of_pos_left _ hleast
        _ ≤ 4 * (d.digits * 10 ^ d.exponent.toNat * unit) := hlow
        _ = d.digits * 10 ^ d.exponent.toNat * (4 * unit) := by ring
        _ < 10 ^ length * 10 ^ d.exponent.toNat * 10 ^ bound := by gcongr
        _ = 10 ^ (length + d.exponent.toNat + bound) := by ring
    have hlt := (Nat.pow_lt_pow_iff_right (by decide)).mp hpow
    omega
  · have hpow : 10 ^ (length - 1 + d.exponent.toNat) < 10 ^ (bound + (-d.exponent).toNat) := by
      have hmul : 10 ^ (length - 1 + d.exponent.toNat) * (4 * unit)
          < 10 ^ (bound + (-d.exponent).toNat) * (4 * unit) := by
        calc 10 ^ (length - 1 + d.exponent.toNat) * (4 * unit)
            = 4 * (10 ^ (length - 1) * 10 ^ d.exponent.toNat * unit) := by ring
          _ ≤ 4 * (d.digits * 10 ^ d.exponent.toNat * unit) := by gcongr
          _ ≤ m.upperEnd * 10 ^ (-d.exponent).toNat := hhigh
          _ < 10 ^ bound * (4 * unit) * 10 ^ (-d.exponent).toNat := by gcongr
          _ = 10 ^ (bound + (-d.exponent).toNat) * (4 * unit) := by ring
      exact Nat.lt_of_mul_lt_mul_right hmul
    have hlt := (Nat.pow_lt_pow_iff_right (by decide)).mp hpow
    omega

/-- A decimal number in the interval of a magnitude is read as that. -/
theorem ofDecimal_of_covers {m : Magnitude} {d : Decimal} (negative : Bool) (hrank : 0 < m.rank)
    (h : m.Covers d) : Binary64.ofDecimal negative d.digits d.exponent = .finite negative m := by
  have hunit : unitPlaces + 2 < 3 * 400 := by decide
  have hgreatest : m.exponent + 55 < 3 * 400 + unitPlaces + 2 := by
    have hle := m.exponent_le
    have hplaces : unitPlaces = 1074 := rfl
    omega
  obtain ⟨hdigits, hleast, hmost⟩ := places_of_covers hunit hgreatest hrank h
  have hnearest := nearest_of_readsFrom (Nat.pow_pos (by decide)) (covers_iff.mp h)
  have hquotient : Binary64.ofQuotient negative (d.digits * 10 ^ d.exponent.toNat)
      (10 ^ (-d.exponent).toNat) = .finite negative m := by
    rw [Binary64.ofQuotient, hnearest, Option.elim_some]
  unfold Binary64.ofDecimal
  dsimp only
  rw [if_neg (by omega), if_neg (by omega)]
  by_cases hexponent : 0 ≤ d.exponent
  · have hzero : (-d.exponent).toNat = 0 := by omega
    rw [hzero, pow_zero] at hquotient
    rw [if_pos hexponent, Nat.pow_eq, hquotient]
  · have hzero : d.exponent.toNat = 0 := by omega
    rw [hzero, pow_zero, Nat.mul_one] at hquotient
    rw [if_neg hexponent, Nat.pow_eq, hquotient]

/-- The same number with one more digit, which is a zero after the point. -/
theorem Covers.withPoint {m : Magnitude} {d : Decimal} (hexponent : 0 ≤ d.exponent)
    (h : m.Covers d) : m.Covers ⟨d.digits * 10 ^ (d.exponent.toNat + 1), -1⟩ := by
  have hzero : (-d.exponent).toNat = 0 := by omega
  have hscaled := readsFrom_mul (show 0 < 10 by decide) (covers_iff.mp h)
  rw [hzero, pow_zero, Nat.one_mul] at hscaled
  rw [covers_iff]
  generalize 2 ^ unitPlaces = unit at hscaled ⊢
  have hnum : 4 * (d.digits * 10 ^ d.exponent.toNat * unit) * 10
      = 4 * (d.digits * 10 ^ (d.exponent.toNat + 1) * 10 ^ 0 * unit) := by ring
  rw [hnum] at hscaled
  exact hscaled

end TreeQuery.Magnitude
