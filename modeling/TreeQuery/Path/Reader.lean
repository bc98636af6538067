import TreeQuery.Literal.Reader
import TreeQuery.Path.Basic

/-!
# Reading paths

A path is read from a cursor up to the end of the text or to the first space that
is not part of a quoted key or a filter.  The space stays unread, so a path can
stand inside a larger text.

Between two selectors a point is needed before a key and may stand before an
opening bracket.  A bare key is a run of characters other than the space, the
double quote, the point, brackets and braces.  A single quote opens a quoted key
only where the key starts.

A filter is a compound literal.  Each filter counts its open containers on its
own, under the limit given for the path.

The loop over the selectors has the length of the text as its fuel.  Every
selector takes at least one character, so the fuel never runs out.
-/

namespace TreeQuery

open Reader

namespace Path

/-- A character that a bare key may hold. -/
def isKeyChar (c : Char) : Bool :=
  !(c = ' ' || c = '"' || c = '[' || c = ']' || c = '.' || c = '\x7b' || c = '\x7d')

/-- Read a bare key. -/
def readBareKey : Reader String := do
  let key ← readWhile isKeyChar
  if key ≠ [] then pure (String.ofList key) else fail (.missingKey (← peek))

/-- Read a filter. -/
def readFilter (limit : Nat) : Reader Compound := Literal.fromOutside (Literal.readCompound limit)

/-- Read the filter that may follow a key. -/
def readAfterKey (limit : Nat) (name : String) : Reader Selector := do
  if (← peek) = some '{' then return .childMatching name (← readFilter limit)
  else return .child name

/-- Read an index.  What is no integer counts as a fault of the selector. -/
def readIndex : Reader Int64 := fun cursor =>
  match readInteger cursor with
  | .error ⟨.badInteger text, position⟩ after => .error ⟨.badIndex text, position⟩ after
  | outcome => outcome

/-- Read what stands between the brackets of a selector of elements. -/
def readInside (limit : Nat) : Reader Selector := do
  match ← peek with
  | none => fail (.unexpectedEnd .listIndex)
  | some '{' => return .elementsMatching (← readFilter limit)
  | some ']' => pure .elements
  | some _ => return .element (← readIndex)

/-- Read a selector of elements. -/
def readBrackets (limit : Nat) : Reader Selector := do
  expect '['
  let selector ← readInside limit
  expect ']'
  pure selector

/-- Read one selector.  Only the first one may be a filter alone. -/
def readSelector (limit : Nat) (first : Bool) : Reader Selector := do
  match ← peek with
  | some '{' =>
      if first then return .rootMatching (← readFilter limit) else fail .misplacedRootFilter
  | some '[' => readBrackets limit
  | next =>
      if next.any isQuote then readAfterKey limit (← readQuoted)
      else readAfterKey limit (← readBareKey)

/-- Read what stands between two selectors.  The answer says whether the path goes
on. -/
def readJoint : Reader Bool := do
  match ← peek with
  | none | some ' ' => pure false
  | some '[' | some '{' => pure true
  | some _ => do
      expect '.'
      pure true

/-- Read selectors up to the end of the path, which started at the given byte. -/
def readSegments (limit start : Nat) : (first : Bool) → (fuel : Nat) → Reader (List Segment)
  | _, 0 => fail .trailingInput
  | first, fuel + 1 => do
      let selector ← readSelector limit first
      let cursor ← get
      let segment := ⟨selector, cursor.position - start⟩
      if ← readJoint then
        let rest ← readSegments limit start false fuel
        pure (segment :: rest)
      else pure [segment]

/-- Read a path at the cursor, under a limit on the open containers of each
filter. -/
def read (limit : Nat) : Reader Path := do
  let start ← get
  let segments ← readSegments limit start.position true (start.rest.length + 1)
  let stop ← get
  pure ⟨String.ofList (start.textTo stop), segments⟩

/-- Read a whole text as one path, under a limit on the open containers of each
filter. -/
def parse (text : String) (limit : Nat := Literal.defaultLimit) : Except SyntaxError Path :=
  let whole : Reader Path := do
    let path ← read limit
    if (← peek).isSome then fail .trailingInput else pure path
  match whole (.atStart text.toList) with
  | .ok path _ => .ok path
  | .error error _ => .error error

end Path

end TreeQuery
