import TreeQuery.Json.Basic
import TreeQuery.Number.Numeral

/-!
# Reading the numbers of JSON

A number without fraction and power of ten is an integer if it fits 64 bits, with
a sign or without one.  Minus zero is a float, so that its sign is kept.

Every other number is a float and is read in three roundings.  The digits form a
natural number, up to the greatest one of 64 bits, and later digits only count as
places.  This number is rounded to a float.  It is then multiplied with, or
divided by, the float nearest to a power of ten.  So the result can be a
neighbour of the nearest float.  A number that is too great for a float is
refused, and one that is too small is zero.
-/

namespace TreeQuery

namespace Json

/-- Take digits from the front as long as the number they form has 64 bits.  The
answer has the number and the digits that are left. -/
def absorb : Nat → List Char → Nat × List Char
  | significand, [] => (significand, [])
  | significand, c :: rest =>
      let longer := 10 * significand + (c.toNat - '0'.toNat)
      if longer < UInt64.size then absorb longer rest else (significand, c :: rest)

/-- The float nearest to a power of ten. -/
def powerOfTen (exponent : Nat) : Binary64 := .ofDecimal false 1 exponent

/-- A float times a power of ten, none when that is infinite.  Powers beyond the
range of floats are taken in steps, and after three of them the float is zero. -/
def scale : (steps : Nat) → Binary64 → Int → Option Binary64
  | 0, x, _ => some x
  | steps + 1, x, exponent =>
      if exponent.natAbs ≤ 308 then
        if 0 ≤ exponent then
          let product := x.mul (powerOfTen exponent.natAbs)
          if product.isFinite then some product else none
        else some (x.div (powerOfTen exponent.natAbs))
      else if x = .zero then some x
      else if 0 ≤ exponent then none
      else scale steps (x.div (powerOfTen 308)) (exponent + 308)

/-- The float that digits before and after the point and a power of ten stand
for. -/
def floatOf? (negative : Bool) (whole fraction : List Char) (power : Int) : Option Binary64 :=
  let (start, skipped) := absorb 0 whole
  let (significand, left) := absorb start fraction
  let exponent := power + skipped.length - (fraction.length - left.length : Nat)
  (scale 4 (.ofNat significand) exponent).map fun x => if negative then x.negate else x

/-- The number that digits without point and power of ten stand for. -/
def integerOf? (negative : Bool) (whole : List Char) : Option Json :=
  let n := Nat.ofDigitChars 10 whole 0
  if negative then
    if n = 0 ∨ Int64.minValue.toInt.natAbs < n then (floatOf? true whole [] 0).map .float
    else some (.integer (-(n : Int)))
  else if n < UInt64.size then some (.integer n)
  else (floatOf? false whole [] 0).map .float

/-- The digits at the front, of which there must be one. -/
def takeDigits? (text : List Char) : Option (List Char × List Char) :=
  let digits := text.takeWhile Char.isDigit
  if digits = [] then none else some (digits, text.dropWhile Char.isDigit)

/-- The digits before the point: no zero stands before another digit. -/
def takeWhole? (text : List Char) : Option (List Char × List Char) :=
  (takeDigits? text).bind fun (digits, rest) =>
    if digits.head? = some '0' ∧ 1 < digits.length then none else some (digits, rest)

/-- The digits after the point, if there is a point. -/
def takeFraction? : List Char → Option (Option (List Char) × List Char)
  | '.' :: rest => (takeDigits? rest).map fun (digits, rest) => (some digits, rest)
  | text => some (none, text)

/-- The power of ten, if there is one. -/
def takePower? : List Char → Option (Option Int × List Char)
  | [] => some (none, [])
  | c :: rest =>
      if c = 'e' ∨ c = 'E' then
        let (negative, unsigned) := Numeral.splitSign rest
        (takeDigits? unsigned).map fun (digits, rest) =>
          let n : Int := Nat.ofDigitChars 10 digits 0
          (some (if negative then -n else n), rest)
      else some (none, c :: rest)

/-- Read a number at the front of a text. -/
def readNumber? (text : List Char) : Option (Json × List Char) := do
  let (negative, unsigned) :=
    match text with
    | '-' :: rest => (true, rest)
    | _ => (false, text)
  let (whole, rest) ← takeWhole? unsigned
  let (fraction, rest) ← takeFraction? rest
  let (power, rest) ← takePower? rest
  let number ←
    if fraction = none ∧ power = none then integerOf? negative whole
    else (floatOf? negative whole (fraction.getD []) (power.getD 0)).map .float
  pure (number, rest)

end Json

end TreeQuery
