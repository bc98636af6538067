import TreeQuery.Text.Hidden

/-!
# Escaped text

A text in double quotes in which every character can be seen.  The quote, the
backslash and four controls have an escape of their own, and the hidden characters
stand as their code points in hexadecimal.
-/

namespace TreeQuery.Text

/-- A character in escaped text. -/
def escapeChar (c : Char) : List Char :=
  if c = '\x00' then ['\\', '0']
  else if c = '\t' then ['\\', 't']
  else if c = '\r' then ['\\', 'r']
  else if c = '\n' then ['\\', 'n']
  else if c = '"' ∨ c = '\\' then ['\\', c]
  else if isHidden c then ['\\', 'u', '{'] ++ Nat.toDigits 16 c.toNat ++ ['}']
  else [c]

/-- A text in quotes with escapes. -/
def escape (text : String) : List Char :=
  '"' :: (text.toList.flatMap escapeChar ++ ['"'])

example : String.ofList (escape "a\"\n") = "\"a\\\"\\n\"" := by decide +kernel

end TreeQuery.Text
