import TreeQuery.Number.Numeral
import TreeQuery.Number.Shortest

/-!
# How floats are written

A float is written with the fewest digits that read back, either positionally or
with a power of ten.  The text always shows that it is a float: a positional text
has a point with a digit on both sides, and any other text has an exponent.

What differs between formats is one record, a `FloatLayout`: where positional
notation ends on both sides, whether a positive exponent has a sign, and which
way an exact tie between two equally short texts goes.
-/

namespace TreeQuery

/-- The decisions of a format about floats. -/
structure FloatLayout where
  /-- Which of two equally near texts is taken. -/
  tie : Tie
  /-- The least power of ten of the first digit that is written positionally. -/
  leastPositional : Int
  /-- The least power of ten of the first digit, above zero, that is not. -/
  positionalBelow : Int
  /-- Whether a positive exponent has a plus sign. -/
  plusSign : Bool

namespace FloatLayout

/-- Digits with a point before the power `exponent` of ten ends. -/
def positional (digits : List Char) (exponent : Int) : List Char :=
  if 0 ≤ exponent then digits ++ List.replicate exponent.toNat '0' ++ ['.', '0']
  else
    let places := (-exponent).toNat
    if places < digits.length then
      digits.take (digits.length - places) ++ '.' :: digits.drop (digits.length - places)
    else '0' :: '.' :: (List.replicate (places - digits.length) '0' ++ digits)

/-- Digits with a point after the first, times a power of ten. -/
def scientific (plusSign : Bool) (digits : List Char) (exponent : Int) : List Char :=
  let significand :=
    match digits with
    | first :: next :: rest => first :: '.' :: next :: rest
    | _ => digits
  let sign := if 0 ≤ exponent ∧ plusSign then ['+'] else []
  significand ++ 'e' :: (sign ++ Numeral.ofInt exponent)

/-- The text of a decimal number that is not zero. -/
def writeDecimal (layout : FloatLayout) (d : Decimal) : List Char :=
  let digits := Numeral.ofNat d.digits
  let first := d.exponent + digits.length - 1
  if layout.leastPositional ≤ first ∧ first < layout.positionalBelow then
    positional digits d.exponent
  else scientific layout.plusSign digits first

/-- The text of a finite magnitude. -/
def writeMagnitude (layout : FloatLayout) (m : Magnitude) : List Char :=
  if m.rank = 0 then "0.0".toList else layout.writeDecimal (m.shortest layout.tie)

/-- The text of a float. -/
def write (layout : FloatLayout) : Binary64 → List Char
  | .nan => "NaN".toList
  | .infinite negative => (if negative then ['-'] else []) ++ "inf".toList
  | .finite negative m => (if negative then ['-'] else []) ++ layout.writeMagnitude m

end FloatLayout

example : FloatLayout.positional "15".toList (-1) = "1.5".toList := by decide
example : FloatLayout.positional "15".toList (-4) = "0.0015".toList := by decide
example : FloatLayout.positional "15".toList 2 = "1500.0".toList := by decide
example : FloatLayout.scientific true "1".toList 16 = "1e+16".toList := by decide
example : FloatLayout.scientific false "15".toList (-7) = "1.5e-7".toList := by decide

end TreeQuery
