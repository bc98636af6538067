import TreeQuery.Number.Binary64

/-!
# The fewest digits that read back

A finite magnitude is written with the fewest decimal digits from which it is
read again.  The numbers that are read as a magnitude form an interval around
it, which ends half way to its two neighbours.  The ends belong to it when the
significand is even, since a tie goes to the even one.

The *grid* of a power of ten holds the multiples of that power.  The grids are
tried from a coarse one to finer ones, and the first one with a point in the
interval gives the digits.  Only the two grid points next to the magnitude can
be in the interval if any is.  When both are, the nearer one is taken.  An exact
tie between them is left to the caller, since formats differ there.

Lengths are counted in quarters of a unit, so that every end of an interval is a
natural number.  A coarse grid and a magnitude are brought to one denominator
before they are compared, so all of this is exact.
-/

namespace TreeQuery

/-- A decimal number, `digits * 10 ^ exponent`. -/
structure Decimal where
  /-- The digits, as one number. -/
  digits : Nat
  /-- The power of ten they are multiplied with. -/
  exponent : Int
deriving DecidableEq, Repr

namespace Magnitude

/-! ## The interval of a magnitude -/

/-- The magnitude in quarters of a unit. -/
def quarters (m : Magnitude) : Nat := 4 * m.units

/-- Half way to the next smaller magnitude, in quarters of a unit.  Below a power
of two the step is only half as long. -/
def lowerEnd (m : Magnitude) : Nat :=
  if m.significand = Nat.pow 2 52 ∧ 0 < m.exponent then m.quarters - Nat.pow 2 m.exponent
  else m.quarters - 2 * Nat.pow 2 m.exponent

/-- Half way to the next greater magnitude, in quarters of a unit. -/
def upperEnd (m : Magnitude) : Nat := m.quarters + 2 * Nat.pow 2 m.exponent

/-- Whether `num / den` quarters of a unit are read as this magnitude. -/
def readsFrom (m : Magnitude) (num den : Nat) : Bool :=
  if m.significand % 2 = 0 then m.lowerEnd * den ≤ num && num ≤ m.upperEnd * den
  else m.lowerEnd * den < num && num < m.upperEnd * den

/-! ## The search over the grids -/

/-- The grid of `10 ^ power`, as the quotient of the quarters from one grid point
to the next. -/
def gridStep (power : Int) : Nat × Nat :=
  (4 * Nat.pow 2 unitPlaces * Nat.pow 10 power.toNat, Nat.pow 10 (-power).toNat)

/-- The grid point of `10 ^ power` that stands for the magnitude, if there is
one. -/
def gridPoint? (tie : Tie) (m : Magnitude) (power : Int) : Option Nat :=
  let (num, den) := gridStep power
  let below := m.quarters * den / num
  match m.readsFrom (below * num) den, m.readsFrom ((below + 1) * num) den with
  | true, true => some (roundQuotient tie (m.quarters * den) num)
  | true, false => some below
  | false, true => some (below + 1)
  | false, false => none

/-- A power of ten that is greater than the magnitude by a factor of less than a
thousand. -/
def coarsePower (m : Magnitude) : Int :=
  ((m.units.log2 : Int) + 1 - unitPlaces) * 30103 / 100000 + 1

/-- The grids from a power of ten downwards, as many as the fuel says.  If none of
them has a point, all digits of the magnitude are written. -/
def searchGrids (tie : Tie) (m : Magnitude) : Nat → Int → Decimal
  | 0, _ => ⟨m.units * Nat.pow 5 unitPlaces, -unitPlaces⟩
  | fuel + 1, power =>
      match m.gridPoint? tie power with
      | some digits => ⟨digits, power⟩
      | none => searchGrids tie m fuel (power - 1)

/-- The decimal number with the fewest digits that is read as this magnitude, and
the nearest of those.  Seventeen digits always suffice, and the first grids may
be too coarse to have any. -/
def shortest (tie : Tie) (m : Magnitude) : Decimal :=
  searchGrids tie m 20 m.coarsePower

end Magnitude

/-- The shortest decimal of the magnitude nearest to a quotient. -/
example : (Magnitude.nearest 1 10).map (Magnitude.shortest .even) = some ⟨1, -1⟩ := by
  decide +kernel
example : (Magnitude.shortest .even ⟨1, by decide⟩) = ⟨5, -324⟩ := by decide +kernel
/-- The last magnitude. -/
example : (Magnitude.shortest .even ⟨rankLimit - 1, by decide⟩) = ⟨17976931348623157, 292⟩ := by
  decide +kernel
/-- `2 ^ -44` is a little nearer to a smaller number of sixteen digits.  That one is not in its
interval, which is only half as long below a power of two. -/
example : (Magnitude.nearest 1 (2 ^ 44)).map (Magnitude.shortest .even)
    = some ⟨5684341886080802, -29⟩ := by decide +kernel

end TreeQuery
