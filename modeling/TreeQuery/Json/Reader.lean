import TreeQuery.Json.Number

/-!
# Reading JSON

The text of a JSON document, read strictly.  Blanks are the space, the tab, the
line feed and the carriage return.  No control character stands in a string, no
comma before a closing bracket, and an escape that is half of a pair of UTF-16
units must be followed by the other half.  Of equal keys in an object the last
one counts.

At most 127 containers may be open at a time.  `readWithin room` reads a document
in which `room` containers may be open, by recursion on `room`.  The parts of one
container are read in a loop whose fuel is the length of the text.

Why a text is refused is not said.
-/

namespace TreeQuery

namespace Json

/-- A reader takes characters from the front, or fails. -/
abbrev Reader := StateT (List Char) Option

/-- A blank of JSON. -/
def isBlank (c : Char) : Bool := c = ' ' || c = '\t' || c = '\n' || c = '\r'

/-- Drop the blanks at the front. -/
def skipBlanks : Reader Unit := modify fun text => text.dropWhile isBlank

/-- The next character, which stays unread. -/
def peek : Reader (Option Char) := do
  return (← get).head?

/-- Read one character that must be the given one. -/
def expect (wanted : Char) : Reader Unit := fun text =>
  match text with
  | c :: rest => if c = wanted then some ((), rest) else none
  | [] => none

/-- Read a word that must be the given one. -/
def expectWord : List Char → Reader Unit
  | [] => pure ()
  | c :: rest => do
      expect c
      expectWord rest

/-! ## Strings -/

/-- The value of a hexadecimal digit. -/
def hexDigit? (c : Char) : Option Nat :=
  if c.isDigit then some (c.toNat - '0'.toNat)
  else if 'a' ≤ c ∧ c ≤ 'f' then some (c.toNat - 'a'.toNat + 10)
  else if 'A' ≤ c ∧ c ≤ 'F' then some (c.toNat - 'A'.toNat + 10)
  else none

/-- The UTF-16 unit of four hexadecimal digits. -/
def unit? (a b c d : Char) : Option Nat := do
  let a ← hexDigit? a
  let b ← hexDigit? b
  let c ← hexDigit? c
  let d ← hexDigit? d
  pure (((a * 16 + b) * 16 + c) * 16 + d)

/-- The character that an escape of one letter stands for. -/
def escaped? : Char → Option Char
  | '"' => some '"'
  | '\\' => some '\\'
  | '/' => some '/'
  | 'b' => some '\x08'
  | 'f' => some '\x0c'
  | 'n' => some '\n'
  | 'r' => some '\r'
  | 't' => some '\t'
  | _ => none

/-- Put a character before a string that was read. -/
def prepend (c : Char) (read : Option (List Char × List Char)) : Option (List Char × List Char) :=
  read.map fun (text, rest) => (c :: text, rest)

/-- Read a string up to its closing quote. -/
def readString? : List Char → Option (List Char × List Char)
  | [] => none
  | '"' :: rest => some ([], rest)
  | '\\' :: 'u' :: a :: b :: c :: d :: rest =>
      match unit? a b c d with
      | none => none
      | some unit =>
          if unit < 0xd800 ∨ 0xdfff < unit then prepend (Char.ofNat unit) (readString? rest)
          else if 0xdc00 ≤ unit then none
          else
            match rest with
            | '\\' :: 'u' :: e :: f :: g :: h :: rest =>
                match unit? e f g h with
                | none => none
                | some second =>
                    if 0xdc00 ≤ second ∧ second ≤ 0xdfff then
                      let code := 0x10000 + (unit - 0xd800) * 0x400 + (second - 0xdc00)
                      prepend (Char.ofNat code) (readString? rest)
                    else none
            | _ => none
  | '\\' :: c :: rest =>
      match escaped? c with
      | some plain => prepend plain (readString? rest)
      | none => none
  | c :: rest => if c.toNat < 0x20 ∨ c = '\\' then none else prepend c (readString? rest)

/-- Read a string with its quotes. -/
def readString : Reader String := do
  expect '"'
  let text : List Char ← fun text => readString? text
  pure (String.ofList text)

/-! ## Containers and documents -/

/-- Read one or more parts with commas between them, up to the closing bracket.
The fuel is more than the number of parts. -/
def readParts {α : Type} (close : Char) (part : Reader α) : Nat → Reader (List α)
  | 0 => failure
  | fuel + 1 => do
      let first ← part
      skipBlanks
      if (← peek) = some ',' then
        expect ','
        skipBlanks
        let rest ← readParts close part fuel
        pure (first :: rest)
      else
        expect close
        pure [first]

/-- Read a container, given how its parts are read. -/
def readContainer {α : Type} (opening close : Char) (part : Reader α) : Reader (List α) := do
  expect opening
  skipBlanks
  if (← peek) = some close then
    expect close
    pure []
  else
    let text ← get
    readParts close part (text.length + 1)

/-- Read a member of an object. -/
def readMember (value : Reader Json) : Reader (String × Json) := do
  let key ← readString
  skipBlanks
  expect ':'
  let found ← value
  pure (key, found)

/-- Read a document, given how arrays and objects are read. -/
def readOf (array : Reader (List Json)) (object : Reader (List (String × Json))) :
    Reader Json := do
  skipBlanks
  match ← peek with
  | some 'n' => do
      expectWord "null".toList
      pure .null
  | some 't' => do
      expectWord "true".toList
      pure (.bool true)
  | some 'f' => do
      expectWord "false".toList
      pure (.bool false)
  | some '"' => return .string (← readString)
  | some '[' => return .array (← array)
  | some '{' => return .object (sortMembers (← object))
  | _ => readNumber?

/-- Read a document in which `room` containers may be open at a time. -/
def readWithin : Nat → Reader Json
  | 0, text => readOf failure failure text
  | room + 1, text =>
      readOf (readContainer '[' ']' (readWithin room))
        (readContainer '{' '}' (readMember (readWithin room))) text

/-- The number of containers that may be open at a time. -/
def openLimit : Nat := 127

/-- Read a document and the blanks after it. -/
def readDocument : Reader Json := do
  let document ← readWithin openLimit
  skipBlanks
  pure document

/-- Read a whole text as one document.  Blanks may surround it. -/
def parse? (text : String) : Option Json :=
  match readDocument text.toList with
  | some (document, []) => some document
  | _ => none

end Json

end TreeQuery
