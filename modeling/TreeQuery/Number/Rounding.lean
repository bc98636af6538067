/-!
# Rounding to the nearest whole number

A quotient of natural numbers lies between two neighbouring whole numbers.  The
nearer one is taken.  When the quotient is half way, a *tie rule* decides.  Both
ways of writing a float and the way of reading one rest on this function, and
they differ only in the tie rule.

`roundQuotient_bounds` says that the result is one of the two neighbours.
-/

namespace TreeQuery

/-- Which of two equally near whole numbers is taken. -/
inductive Tie where
  /-- The even one. -/
  | even
  /-- The greater one. -/
  | above
deriving DecidableEq, Repr

/-- `num / den` rounded to the nearest whole number.  A denominator of zero
counts as a quotient of zero. -/
def roundQuotient (tie : Tie) (num den : Nat) : Nat :=
  let below := num / den
  let twice := 2 * (num % den)
  if twice < den then below
  else if den < twice then below + 1
  else
    match tie with
    | .even => below + below % 2
    | .above => below + 1

/-- The result is the whole number just below the quotient or the one after. -/
theorem roundQuotient_bounds (tie : Tie) (num den : Nat) :
    num / den ≤ roundQuotient tie num den ∧ roundQuotient tie num den ≤ num / den + 1 := by
  unfold roundQuotient
  dsimp only
  split
  · omega
  · split
    · omega
    · cases tie <;> dsimp only <;> omega

example : roundQuotient .even 5 2 = 2 := by decide
example : roundQuotient .even 7 2 = 4 := by decide
example : roundQuotient .above 5 2 = 3 := by decide

end TreeQuery
