/-!
# Blank characters

The characters with the Unicode property `White_Space`.  They may stand between
the tokens of a literal.
-/

namespace TreeQuery.Text

/-- The code points of the blank characters, in runs. -/
def blankRuns : List (Nat × Nat) :=
  [(0x9, 0xd), (0x20, 0x20), (0x85, 0x85), (0xa0, 0xa0), (0x1680, 0x1680), (0x2000, 0x200a),
    (0x2028, 0x2029), (0x202f, 0x202f), (0x205f, 0x205f), (0x3000, 0x3000)]

/-- The character is blank. -/
def isBlank (c : Char) : Bool :=
  blankRuns.any fun (first, last) => first ≤ c.toNat && c.toNat ≤ last

example : (blankRuns.map fun (first, last) => last - first + 1).sum = 25 := by decide
example : isBlank 'a' = false := by decide
example : isBlank '\u2003' = true := by decide

end TreeQuery.Text
