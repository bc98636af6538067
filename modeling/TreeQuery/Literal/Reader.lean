import TreeQuery.Cursor
import TreeQuery.Literal.Bare
import TreeQuery.Value.Basic

/-!
# Reading literals

A literal is a value in text form:

* a compound `{key: value, …}`, where `=` may stand for the colon,
* a list `[value, …]`,
* text in quotes of either kind, or
* a bare word, which is a truth value, an integer, a float or else a text.

Blanks may stand before every token.  A comma may not stand before the closing
bracket.  A repeated key keeps its first place and gets its last value.

The number of open containers is limited.  A reader of literals counts them in
`LiteralState.depth`, and a container that would exceed the limit is refused at
its opening bracket.  The count goes down only when a container is closed.  After
an error the containers that were open stay counted.

`valueWithin limit room` reads a value when `room` more containers may be opened.
The recursion is on `room`, so a value inside a container is read with one less.
The parts of one container are read by a loop over the text, whose fuel is the
length of what is left.  Every part takes at least one character, so the fuel
never runs out.
-/

namespace TreeQuery

open Reader

/-- Where a reader of literals is: its cursor and the open containers. -/
structure LiteralState where
  /-- The cursor. -/
  cursor : Cursor
  /-- The number of open containers. -/
  depth : Nat
deriving DecidableEq, Repr

/-- A reader that counts open containers. -/
abbrev LiteralReader := EStateM SyntaxError LiteralState

namespace Literal

/-- A word that may be a float starts with one of these. -/
def startsNumber (c : Char) : Bool := c.isDigit || c = '-' || c = '+' || c = '.'

/-- The leaf a bare word stands for. -/
def bareScalar (word : List Char) : Scalar :=
  if word = "true".toList then .bool true
  else if word = "false".toList then .bool false
  else
    match Numeral.int64? word with
    | some n => .int n
    | none =>
        match if word.head?.any startsNumber then Numeral.float? word else none with
        | some x => .float x
        | none => .string (String.ofList word)

/-- Read with the cursor, which leaves the count of open containers alone. -/
def onCursor {α : Type} (read : Reader α) : LiteralReader α := fun state =>
  match read state.cursor with
  | .ok value cursor => .ok value { state with cursor }
  | .error error cursor => .error error { state with cursor }

/-! ## The parts of containers -/

/-- Read a key of an entry. -/
def readKey : Reader String := do
  skipBlanks
  let next ← peek
  if next.any isQuote then readQuoted
  else
    let word ← readWhile isBare
    if word ≠ [] then pure (String.ofList word)
    else if next.isSome then fail .missingEntryKey
    else fail (.unexpectedEnd .compoundKey)

/-- Read the sign between a key and its value. -/
def readKeyMark : Reader Unit := do
  skipBlanks
  let found ← peek
  if found = some ':' ∨ found = some '=' then skip else fail (.expected ':' found)

/-- Read a comma, if another part follows.  The answer says whether one does. -/
def readSeparator (close : Char) : Reader Bool := do
  skipBlanks
  let found ← peek
  if found = some ',' then
    skip
    skipBlanks
    let after ← peek
    if after = some close then fail (.trailingComma close) else pure true
  else if found = some close then pure false
  else fail (.expected close found)

/-- Read a bare word as a value. -/
def readBare : Reader Value := do
  let word ← readWhile isBare
  if word = [] then fail .missingValue else pure (.scalar (bareScalar word))

/-- Read an entry of a compound. -/
def readEntry (value : LiteralReader Value) : LiteralReader (String × Value) := do
  let key ← onCursor readKey
  onCursor readKeyMark
  let found ← value
  pure (key, found)

/-- Read one or more parts with commas between them.  The fuel is more than the
number of parts. -/
def readParts {α : Type} (close : Char) (part : LiteralReader α) : Nat → LiteralReader (List α)
  | 0 => onCursor (fail .trailingInput)
  | fuel + 1 => do
      let first ← part
      let more ← onCursor (readSeparator close)
      if more then
        let rest ← readParts close part fuel
        pure (first :: rest)
      else pure [first]

/-- Read the parts up to the closing bracket, of which there may be none. -/
def readPartsUntil {α : Type} (close : Char) (part : LiteralReader α) :
    LiteralReader (List α) := do
  let next ← onCursor peek
  if next = some close then pure []
  else
    let state ← get
    readParts close part (state.cursor.rest.length + 1)

/-! ## Containers and values -/

/-- Refuse to open another container. -/
def refuse {α : Type} (limit : Nat) : LiteralReader α := onCursor (fail (.tooDeep limit))

/-- Read a container.  It counts as open from before its opening bracket to after
its closing one. -/
def readContainer {α : Type} (opening closing : Char) (part : LiteralReader α) :
    LiteralReader (List α) := do
  modify fun state => { state with depth := state.depth + 1 }
  onCursor (expect opening)
  onCursor skipBlanks
  let parts ← readPartsUntil closing part
  onCursor (expect closing)
  modify fun state => { state with depth := state.depth - 1 }
  pure parts

/-- Read a compound, given how its values are read. -/
def compoundOf (value : LiteralReader Value) : LiteralReader Compound := do
  let entries ← readContainer '{' '}' (readEntry value)
  pure (Compound.ofList entries)

/-- Read a list, given how its elements are read. -/
def listOf (value : LiteralReader Value) : LiteralReader (List Value) :=
  readContainer '[' ']' value

/-- Read a value, given how compounds and lists are read. -/
def valueOf (compound : LiteralReader Compound) (list : LiteralReader (List Value)) :
    LiteralReader Value := do
  onCursor skipBlanks
  let next ← onCursor peek
  match next with
  | none => onCursor (fail (.unexpectedEnd .value))
  | some '{' => return .compound (← compound)
  | some '[' => return .list (← list)
  | some c =>
      if isQuote c then return .scalar (.string (← onCursor readQuoted)) else onCursor readBare

/-- Read a value when `room` more containers may be opened. -/
def valueWithin (limit : Nat) : Nat → LiteralReader Value
  | 0, state => valueOf (refuse limit) (refuse limit) state
  | room + 1, state =>
      valueOf (compoundOf (valueWithin limit room)) (listOf (valueWithin limit room)) state

/-- Read a compound when `room` more containers may be opened. -/
def compoundWithin (limit : Nat) : Nat → LiteralReader Compound
  | 0 => refuse limit
  | room + 1 => compoundOf (valueWithin limit room)

/-- Read a value under a limit on the open containers. -/
def readValue (limit : Nat) : LiteralReader Value := do
  let state ← get
  valueWithin limit (limit - state.depth)

/-- Read a compound under a limit on the open containers. -/
def readCompound (limit : Nat) : LiteralReader Compound := do
  let state ← get
  compoundWithin limit (limit - state.depth)

/-- Use a reader of literals where no container is open yet. -/
def fromOutside {α : Type} (read : LiteralReader α) : Reader α := fun cursor =>
  match read ⟨cursor, 0⟩ with
  | .ok value state => .ok value state.cursor
  | .error error state => .error error state.cursor

/-- The limit on open containers where none is given. -/
def defaultLimit : Nat := 512

/-- Read one value at a cursor. -/
def read (limit : Nat) : Reader Value := fromOutside (readValue limit)

/-- Read a whole text as one value.  Blanks may surround it. -/
def parse (text : String) : Except SyntaxError Value :=
  let whole : Reader Value := do
    let value ← read defaultLimit
    skipBlanks
    if (← peek).isSome then fail .trailingInput else pure value
  match whole (.atStart text.toList) with
  | .ok value _ => .ok value
  | .error error _ => .error error

/-- A comma before the closing brace is refused where the brace is. -/
example : (match readValue 2 ⟨.atStart "\x7ba=[1,x] , \x7d".toList, 0⟩ with
    | .error e _ => some e
    | .ok .. => none) = some ⟨.trailingComma '\x7d', 11⟩ := by cbv

end Literal

end TreeQuery
