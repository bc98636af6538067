import TreeQuery.Literal.Bare
import TreeQuery.Number.Layout
import TreeQuery.Value.Basic

/-!
# Writing literals

The literal of a value, without any blanks.  Compounds are in braces and lists in
brackets, with commas between the parts.  A key stands bare when all its
characters are bare ones and there is at least one.  Any other key and every text
is in double quotes, with a backslash before a quote and before a backslash.  All
other characters, control characters too, stand for themselves.

A float always has a point or an exponent, so that it reads back as a float.  Of
two equally near texts of a float the one with the greater last digit is taken.
-/

namespace TreeQuery

namespace Literal

/-- Positional from `1e-4` to below `1e16`, and no sign at a positive exponent. -/
def floatLayout : FloatLayout := ⟨.above, -4, 16, false⟩

/-- A character in quotes. -/
def writeQuotedChar (c : Char) : List Char := if c = '"' ∨ c = '\\' then ['\\', c] else [c]

/-- A text in quotes. -/
def writeQuoted (text : String) : List Char :=
  '"' :: (text.toList.flatMap writeQuotedChar ++ ['"'])

/-- A key, bare if it can be. -/
def writeKey (key : String) : List Char :=
  if key ≠ "" ∧ key.toList.all isBare then key.toList else writeQuoted key

/-- A leaf. -/
def writeScalar : Scalar → List Char
  | .bool b => if b then "true".toList else "false".toList
  | .int n => Numeral.ofInt n.toInt
  | .float x => floatLayout.write x
  | .string s => writeQuoted s

mutual

/-- A value. -/
def write : Value → List Char
  | .compound entries => '{' :: (writeEntries entries ++ ['}'])
  | .list items => '[' :: (writeItems items ++ [']'])
  | .scalar s => writeScalar s

/-- The entries of a compound, with commas between them. -/
def writeEntries : List (String × Value) → List Char
  | [] => []
  | [(key, value)] => writeKey key ++ ':' :: write value
  | (key, value) :: next :: rest =>
      writeKey key ++ ':' :: (write value ++ ',' :: writeEntries (next :: rest))

/-- The elements of a list, with commas between them. -/
def writeItems : List Value → List Char
  | [] => []
  | [item] => write item
  | item :: next :: rest => write item ++ ',' :: writeItems (next :: rest)

end

end Literal

/-- The literal of a value. -/
def Value.literal (value : Value) : String := String.ofList (Literal.write value)

/-- The literal of a leaf. -/
def Scalar.literal (scalar : Scalar) : String := String.ofList (Literal.writeScalar scalar)

/-- Some keys need quotes and some do not. -/
example : Value.literal
      (.compound [("a.b", .list []), ("", .scalar (.string "\"")), ("é", .list [])])
    = "\x7ba.b:[],\"\":\"\\\"\",\"é\":[]\x7d" := by rfl

end TreeQuery
