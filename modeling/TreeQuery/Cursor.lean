import TreeQuery.Number.Numeral
import TreeQuery.SyntaxError
import TreeQuery.Text.Blank
import TreeQuery.Text.Offset

/-!
# The reading cursor

A cursor is a position in a text together with the characters that are still to
be read.  Paths and literals are read from the same cursor, so a path can stand
inside a larger text and reading goes on after it.

`Cursor.seek` moves to any byte of the text.  Inside a character nothing can be
read, and no reader moves the cursor from there.

A `Reader` takes a cursor to a value and a later cursor.  When it fails, it still
leaves a cursor behind, at the place up to which the text was read.  `expect` and
`readInteger` leave the cursor where it was.
-/

namespace TreeQuery

open Text

/-- A position in a text and what follows it. -/
structure Cursor where
  /-- The number of bytes before the cursor. -/
  position : Nat
  /-- The characters after the cursor. -/
  rest : List Char
deriving DecidableEq, Repr

namespace Cursor

/-- The cursor at the start of a text. -/
def atStart (text : List Char) : Cursor := ⟨0, text⟩

/-- The cursor at a byte of a text, or at the end of the text if it has fewer
bytes. -/
def seek (text : List Char) (offset : Nat) : Cursor :=
  let position := min offset (byteLength text)
  match splitBytes? position text with
  | some (_, after) => ⟨position, after⟩
  | none => ⟨position, []⟩

/-- The characters from a cursor to a later one. -/
def textTo (start stop : Cursor) : List Char :=
  start.rest.take (start.rest.length - stop.rest.length)

/-- The cursor after the first characters that satisfy a condition. -/
def dropWhile (accept : Char → Bool) (cursor : Cursor) : Cursor :=
  ⟨cursor.position + byteLength (cursor.rest.takeWhile accept), cursor.rest.dropWhile accept⟩

end Cursor

/-! ## Readers -/

/-- A reader takes a cursor and gives a value or a syntax error, and a cursor in
both cases. -/
abbrev Reader := EStateM SyntaxError Cursor

namespace Reader

/-- Fail at the cursor. -/
def fail {α : Type} (fault : SyntaxFault) : Reader α := fun cursor =>
  .error ⟨fault, cursor.position⟩ cursor

/-- The next character, which stays unread. -/
def peek : Reader (Option Char) := fun cursor => .ok cursor.rest.head? cursor

/-- Read one character, if there is one. -/
def skip : Reader Unit := fun cursor =>
  match cursor.rest with
  | [] => .ok () cursor
  | c :: rest => .ok () ⟨cursor.position + c.utf8Size, rest⟩

/-- Read one character that must be the given one. -/
def expect (wanted : Char) : Reader Unit := do
  let found ← peek
  if found = some wanted then skip else fail (.expected wanted found)

/-- Read the longest run of characters that satisfy a condition. -/
def readWhile (accept : Char → Bool) : Reader (List Char) := fun cursor =>
  .ok (cursor.rest.takeWhile accept) (cursor.dropWhile accept)

/-- Read the blanks that come next. -/
def skipBlanks : Reader Unit := do
  discard <| readWhile isBlank

/-- The text up to the closing quote, none when it is missing, and the cursor
after it.  A backslash is dropped and the character after it is kept, whatever it
is. -/
def unquote (quote : Char) (position : Nat) : List Char → Option (List Char) × Cursor
  | [] => (none, ⟨position, []⟩)
  | ['\\'] => (none, ⟨position + 1, []⟩)
  | '\\' :: c :: rest =>
      let (text, cursor) := unquote quote (position + 1 + c.utf8Size) rest
      (text.map (c :: ·), cursor)
  | c :: rest =>
      if c = quote then (some [], ⟨position + c.utf8Size, rest⟩)
      else
        let (text, cursor) := unquote quote (position + c.utf8Size) rest
        (text.map (c :: ·), cursor)

/-- A character that opens quoted text. -/
def isQuote (c : Char) : Bool := c = '"' || c = '\''

/-- Read text in quotes of either kind. -/
def readQuoted : Reader String := do
  let found ← peek
  match found with
  | some quote =>
      if isQuote quote then
        skip
        fun cursor =>
          match unquote quote cursor.position cursor.rest with
          | (some text, after) => .ok (String.ofList text) after
          | (none, after) => .error ⟨.unexpectedEnd .quotedString, after.position⟩ after
      else fail (.expected '"' found)
  | none => fail (.expected '"' found)

/-- A character that a numeral in a path may hold. -/
def isNumeralChar (c : Char) : Bool := c.isDigit || c = '-' || c = '+' || c = '.'

/-- Read an integer of 64 bits. -/
def readInteger : Reader Int64 := fun cursor =>
  let text := cursor.rest.takeWhile isNumeralChar
  match Numeral.int64? text with
  | some n => .ok n (cursor.dropWhile isNumeralChar)
  | none => .error ⟨.badInteger (String.ofList text), cursor.position⟩ cursor

example : readQuoted (.atStart "'it\\'s' x".toList) = .ok "it's" ⟨7, " x".toList⟩ := by
  rfl
example : readQuoted (.atStart "\"a\\".toList)
    = .error ⟨.unexpectedEnd .quotedString, 3⟩ ⟨3, []⟩ := by rfl
example : readInteger (.atStart "1.5]".toList)
    = .error ⟨.badInteger "1.5", 0⟩ (.atStart "1.5]".toList) := by rfl

end Reader

end TreeQuery
