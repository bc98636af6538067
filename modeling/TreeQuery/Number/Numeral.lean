import TreeQuery.Number.Binary64

/-!
# Numerals

The text of a number.  A numeral of an integer is a run of decimal digits after
at most one sign, so leading zeros and `-0` are numerals too.  A numeral of a
float may also have a fraction, of which one side of the point may be empty, and
a power of ten.  The words for the infinities and for a missing number are
numerals of floats in any case of letters.

An integer of the value model has 64 bits, and a numeral outside that range is
not read.  A float is read as the number nearest to the numeral.
-/

namespace TreeQuery

namespace Numeral

/-- The sign of a numeral and what follows it. -/
def splitSign : List Char → Bool × List Char
  | '-' :: rest => (true, rest)
  | '+' :: rest => (false, rest)
  | text => (false, text)

/-- A run of decimal digits, which may not be empty. -/
def natural? (text : List Char) : Option Nat :=
  if text = [] then none
  else if text.all Char.isDigit then some (Nat.ofDigitChars 10 text 0)
  else none

/-- An integer of any size. -/
def integer? (text : List Char) : Option Int :=
  let (negative, digits) := splitSign text
  (natural? digits).map fun n => if negative then -(n : Int) else n

/-- The integer is one of 64 bits. -/
def inInt64 (n : Int) : Bool := Int64.minValue.toInt ≤ n && n ≤ Int64.maxValue.toInt

/-- An integer of 64 bits. -/
def int64? (text : List Char) : Option Int64 :=
  (integer? text).bind fun n => if inInt64 n then some (Int64.ofInt n) else none

/-- The digits of a natural number. -/
def ofNat (n : Nat) : List Char := Nat.toDigits 10 n

/-- The numeral of an integer: its digits, after a minus sign if it is negative. -/
def ofInt : Int → List Char
  | .ofNat n => ofNat n
  | .negSucc n => '-' :: ofNat (n + 1)

/-- What follows the significand of a float: nothing, or a power of ten. -/
def power? : List Char → Option Int
  | [] => some 0
  | c :: rest => if c = 'e' ∨ c = 'E' then integer? rest else none

/-- A float without its sign, written in digits. -/
def decimal? (negative : Bool) (text : List Char) : Option Binary64 :=
  let whole := text.takeWhile Char.isDigit
  let (fraction, rest) :=
    match text.dropWhile Char.isDigit with
    | '.' :: rest => (rest.takeWhile Char.isDigit, rest.dropWhile Char.isDigit)
    | rest => ([], rest)
  if whole ++ fraction = [] then none
  else
    (power? rest).map fun power =>
      .ofDecimal negative (Nat.ofDigitChars 10 (whole ++ fraction) 0) (power - fraction.length)

/-- A float. -/
def float? (text : List Char) : Option Binary64 :=
  let (negative, body) := splitSign text
  let word := String.ofList (body.map Char.toLower)
  if word = "inf" ∨ word = "infinity" then some (.infinite negative)
  else if word = "nan" then some .nan
  else decimal? negative body

/-- The digits of a number read back. -/
theorem natural?_ofNat (n : Nat) : natural? (ofNat n) = some n := by
  have hne : Nat.toDigits 10 n ≠ [] := Nat.toDigits_ne_nil
  have hall : (Nat.toDigits 10 n).all Char.isDigit = true := by
    rw [List.all_eq_true]
    intro c hc
    exact Nat.isDigit_of_mem_toDigits (by decide) (by decide) hc
  simp [natural?, ofNat, hne, hall]

example : int64? "-007".toList = some (-7) := by decide +kernel
example : int64? "9223372036854775808".toList = none := by decide +kernel
example : int64? "1.5".toList = none := by decide +kernel
example : float? "1.".toList = some (.ofNat 1) := by decide +kernel
example : float? "+.5e1".toList = some (.ofNat 5) := by decide +kernel
example : float? "-Inf".toList = some (.infinite true) := by decide +kernel
example : float? ".e1".toList = none := by decide +kernel

end Numeral

end TreeQuery
