/-!
# Bare words

The characters that a key or a value of a literal may be made of without quotes:
the letters and digits of ASCII and four signs.
-/

namespace TreeQuery.Literal

/-- A character that a bare word may hold. -/
def isBare (c : Char) : Bool := c.isAlphanum || c = '_' || c = '-' || c = '.' || c = '+'

example : isBare 'é' = false := by decide
example : "a-1_b.c+2".toList.all isBare = true := by decide

end TreeQuery.Literal
