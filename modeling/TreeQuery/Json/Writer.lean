import TreeQuery.Json.Basic
import TreeQuery.Number.Layout

/-!
# Writing JSON

A document is written compactly, without any blanks, or indented, with each part
of a container on a line of its own.  In strings the quote, the backslash and the
control characters are escaped, and every other character stands for itself.

Of two equally near texts of a float the one with the even last digit is taken.  A
float that is no finite number has no text in JSON and is written as null.
-/

namespace TreeQuery

namespace Json

/-- Positional from `1e-5` to below `1e16`, and a plus sign at a positive
exponent. -/
def floatLayout : FloatLayout := ⟨.even, -5, 16, true⟩

/-- A float. -/
def writeFloat (x : Binary64) : List Char :=
  if x.isFinite then floatLayout.write x else "null".toList

/-- A character in a string. -/
def writeChar (c : Char) : List Char :=
  if c = '"' then "\\\"".toList
  else if c = '\\' then "\\\\".toList
  else if c = '\x08' then "\\b".toList
  else if c = '\x0c' then "\\f".toList
  else if c = '\n' then "\\n".toList
  else if c = '\r' then "\\r".toList
  else if c = '\t' then "\\t".toList
  else if c.toNat < 0x20 then
    "\\u00".toList ++ [Nat.digitChar (c.toNat / 16), Nat.digitChar (c.toNat % 16)]
  else [c]

/-- A string. -/
def writeString (s : String) : List Char := '"' :: (s.toList.flatMap writeChar ++ ['"'])

/-! ## Compact text -/

mutual

/-- A document without blanks. -/
def write : Json → List Char
  | .null => "null".toList
  | .bool b => if b then "true".toList else "false".toList
  | .integer n => Numeral.ofInt n
  | .float x => writeFloat x
  | .string s => writeString s
  | .array items => '[' :: (writeItems items ++ [']'])
  | .object members => '{' :: (writeMembers members ++ ['}'])

/-- The elements of an array, with commas between them. -/
def writeItems : List Json → List Char
  | [] => []
  | [item] => write item
  | item :: next :: rest => write item ++ ',' :: writeItems (next :: rest)

/-- The members of an object, with commas between them. -/
def writeMembers : List (String × Json) → List Char
  | [] => []
  | [(key, value)] => writeString key ++ ':' :: write value
  | (key, value) :: next :: rest =>
      writeString key ++ ':' :: (write value ++ ',' :: writeMembers (next :: rest))

end

/-! ## Indented text -/

/-- A new line at a level of indentation. -/
def newLine (level : Nat) : List Char := '\n' :: List.replicate (2 * level) ' '

mutual

/-- A document that starts at a level of indentation. -/
def writeIndented (level : Nat) : Json → List Char
  | .array [] => "[]".toList
  | .array (item :: rest) =>
      '[' :: (writeItemsIndented (level + 1) (item :: rest) ++ newLine level ++ [']'])
  | .object [] => ['{', '}']
  | .object (member :: rest) =>
      '{' :: (writeMembersIndented (level + 1) (member :: rest) ++ newLine level ++ ['}'])
  | .null => "null".toList
  | .bool b => if b then "true".toList else "false".toList
  | .integer n => Numeral.ofInt n
  | .float x => writeFloat x
  | .string s => writeString s

/-- The elements of an array, each on a line of its own. -/
def writeItemsIndented (level : Nat) : List Json → List Char
  | [] => []
  | [item] => newLine level ++ writeIndented level item
  | item :: next :: rest =>
      newLine level ++ writeIndented level item ++ ',' :: writeItemsIndented level (next :: rest)

/-- The members of an object, each on a line of its own. -/
def writeMembersIndented (level : Nat) : List (String × Json) → List Char
  | [] => []
  | [(key, value)] => newLine level ++ writeString key ++ ": ".toList ++ writeIndented level value
  | (key, value) :: next :: rest =>
      newLine level ++ writeString key ++ ": ".toList ++ writeIndented level value
        ++ ',' :: writeMembersIndented level (next :: rest)

end

/-- The compact text of a document. -/
def compact (document : Json) : String := String.ofList (write document)

/-- The indented text of a document. -/
def indented (document : Json) : String := String.ofList (writeIndented 0 document)

example : compact (.array [.string "\n\x01", .integer (-3), .array []])
    = "[\"\\n\\u0001\",-3,[]]" := by rfl
example : indented (.array [.null, .array []]) = "[\n  null,\n  []\n]" := by rfl

end Json

end TreeQuery
