import TreeQuery.Number.Rounding

/-!
# Binary floating point numbers of 64 bits

A `Binary64` is not a number, an infinity, or a sign with a finite magnitude.
The payload of a value that is not a number is never seen, so there is one such
value only.

The finite magnitudes are numbered in increasing order, from zero on.  This
number is the *rank* of the magnitude.  It stands for `significand * 2 ^ exponent`
units, where the unit is the least positive magnitude, `2 ^ -1074`.  The first
`2 ^ 52` ranks share the exponent zero.  After them each run of `2 ^ 52` ranks
doubles the step.  A significand that is rounded up to the next power of two
gives the first rank of the next run by itself, so rounding has no carry.

All arithmetic is exact on natural numbers and rounded once at the end.
`Binary64.equal` is the comparison the values use: a value that is not a number
differs from itself, and the two zeros are equal.
-/

namespace TreeQuery

/-! ## Finite magnitudes -/

/-- The number of finite magnitudes, which is also the first rank that is too
great. -/
def rankLimit : Nat := 2047 * Nat.pow 2 52

/-- The unit is `2 ^ -unitPlaces`. -/
def unitPlaces : Nat := 1074

/-- A finite magnitude, by its place in the increasing order of all of them. -/
structure Magnitude where
  /-- How many magnitudes are smaller. -/
  rank : Nat
  /-- There are no more magnitudes than that. -/
  rank_lt : rank < rankLimit
deriving DecidableEq, Repr

namespace Magnitude

/-- The zero magnitude. -/
def zero : Magnitude := ⟨0, by decide⟩

/-- The number of doublings of the step below this magnitude. -/
def exponent (m : Magnitude) : Nat := m.rank / Nat.pow 2 52 - 1

-- A product unfolds by its second factor, so that is not the great one.
/-- The magnitude in steps of `2 ^ exponent` units. -/
def significand (m : Magnitude) : Nat := m.rank - Nat.pow 2 52 * m.exponent

/-- The magnitude in units. -/
def units (m : Magnitude) : Nat := m.significand * Nat.pow 2 m.exponent

/-- The binary exponent of a number of units: how often the step has doubled
where such a number lies. -/
def exponentAt (units : Nat) : Nat := units.log2 + 1 - 53

/-- The magnitude nearest to `num / den`, none when that is too great.  A tie goes
to the even significand. -/
def nearest (num den : Nat) : Option Magnitude :=
  let exponent := exponentAt (num * Nat.pow 2 unitPlaces / den)
  let rank := exponent * Nat.pow 2 52
    + roundQuotient .even (num * Nat.pow 2 unitPlaces) (den * Nat.pow 2 exponent)
  if h : rank < rankLimit then some ⟨rank, h⟩ else none

end Magnitude

/-! ## Numbers -/

/-- A floating point number. -/
inductive Binary64 where
  /-- No number. -/
  | nan
  /-- An infinity. -/
  | infinite (negative : Bool)
  /-- A finite number. -/
  | finite (negative : Bool) (magnitude : Magnitude)
deriving DecidableEq, Repr

namespace Binary64

/-- Positive zero. -/
def zero : Binary64 := .finite false .zero

/-- The number is neither an infinity nor missing. -/
def isFinite : Binary64 → Bool
  | .finite .. => true
  | _ => false

/-- The number is missing. -/
def isNaN : Binary64 → Bool
  | .nan => true
  | _ => false

/-- Equality of numbers.  A missing number equals nothing, and the zeros are
equal whatever their signs. -/
def equal : Binary64 → Binary64 → Bool
  | .infinite s, .infinite t => s == t
  | .finite s m, .finite t n => m.rank == n.rank && (s == t || m.rank == 0)
  | _, _ => false

/-- The number nearest to `num / den`, an infinity when that is too great. -/
def ofQuotient (negative : Bool) (num den : Nat) : Binary64 :=
  (Magnitude.nearest num den).elim (.infinite negative) (.finite negative)

/-- The number nearest to a natural number. -/
def ofNat (n : Nat) : Binary64 := ofQuotient false n 1

/-- The number nearest to an integer. -/
def ofInt (n : Int) : Binary64 := ofQuotient (n < 0) n.natAbs 1

/-- The same number with the other sign. -/
def negate : Binary64 → Binary64
  | .nan => .nan
  | .infinite s => .infinite (!s)
  | .finite s m => .finite (!s) m

/-- The product, rounded to the nearest number. -/
def mul : Binary64 → Binary64 → Binary64
  | .finite s m, .finite t n => ofQuotient (s != t) (m.units * n.units) (Nat.pow 2 (2 * unitPlaces))
  | .infinite s, .infinite t => .infinite (s != t)
  | .infinite s, .finite t n => if n.rank = 0 then .nan else .infinite (s != t)
  | .finite s m, .infinite t => if m.rank = 0 then .nan else .infinite (s != t)
  | _, _ => .nan

/-- The quotient, rounded to the nearest number. -/
def div : Binary64 → Binary64 → Binary64
  | .finite s m, .finite t n =>
      if n.rank = 0 then if m.rank = 0 then .nan else .infinite (s != t)
      else ofQuotient (s != t) m.units n.units
  | .infinite s, .finite t _ => .infinite (s != t)
  | .finite s _, .infinite t => .finite (s != t) .zero
  | _, _ => .nan

/-- The number nearest to `digits * 10 ^ exponent`.  Far outside the range of the
finite numbers the power of ten is not computed. -/
def ofDecimal (negative : Bool) (digits : Nat) (exponent : Int) : Binary64 :=
  let places : Int := (Nat.toDigits 10 digits).length + exponent
  if digits = 0 ∨ places < -400 then .finite negative .zero
  else if 400 < places then .infinite negative
  else if 0 ≤ exponent then ofQuotient negative (digits * Nat.pow 10 exponent.toNat) 1
  else ofQuotient negative digits (Nat.pow 10 (-exponent).toNat)

@[simp] theorem equal_nan_left (x : Binary64) : equal .nan x = false := by
  cases x <;> rfl

/-- A number equals itself exactly when there is one. -/
theorem equal_self (x : Binary64) : equal x x = !x.isNaN := by
  cases x <;> simp [equal, isNaN]

example : ofNat 1 = .finite false ⟨1023 * 2 ^ 52, by decide⟩ := by decide +kernel
example : ofDecimal false 1 400 = .infinite false := by decide +kernel
example : (ofDecimal true 5 (-1)).mul (ofNat 4) = ofInt (-2) := by decide +kernel
/-- Half a unit is a tie between zero and the first magnitude. -/
example : ofQuotient false 1 (2 ^ 1075) = zero := by decide +kernel

end Binary64

end TreeQuery
