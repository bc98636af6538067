import TreeQuery.Literal.Writer
import TreeQuery.Path.Basic
import TreeQuery.Text.Escaped

/-!
# The listing of a path

The listing shows how a path was read.  After a line with the whole path it has one
line for every selector: the path through that selector, padded to twenty
characters, and the selector written out in full.

A selector is written as the name of its kind with its fields.  Values are written
with the kind of every container and leaf, and texts are escaped.
-/

namespace TreeQuery

namespace Listing

/-- A leaf with its kind. -/
def showScalar : Scalar → List Char
  | .bool b => "Scalar(Bool(".toList ++ Literal.writeScalar (.bool b) ++ "))".toList
  | .int n => "Scalar(Int(".toList ++ Literal.writeScalar (.int n) ++ "))".toList
  | .float x => "Scalar(Float(".toList ++ Literal.writeScalar (.float x) ++ "))".toList
  | .string s => "Scalar(String(".toList ++ Text.escape s ++ "))".toList

mutual

/-- A value with the kinds of all its parts. -/
def showValue : Value → List Char
  | .compound entries => "Compound(\x7b".toList ++ showEntries entries ++ "\x7d)".toList
  | .list items => "List([".toList ++ showItems items ++ "])".toList
  | .scalar s => showScalar s

/-- Entries with commas and spaces between them. -/
def showEntries : List (String × Value) → List Char
  | [] => []
  | [(key, value)] => Text.escape key ++ ": ".toList ++ showValue value
  | (key, value) :: next :: rest =>
      Text.escape key ++ ": ".toList ++ showValue value ++ ", ".toList ++ showEntries (next :: rest)

/-- Elements with commas and spaces between them. -/
def showItems : List Value → List Char
  | [] => []
  | [item] => showValue item
  | item :: next :: rest => showValue item ++ ", ".toList ++ showItems (next :: rest)

end

/-- A pattern. -/
def showPattern (pattern : Compound) : List Char := '{' :: (showEntries pattern ++ ['}'])

/-- A kind with its fields. -/
def showFields (kind : String) (fields : List (String × List Char)) : List Char :=
  let shown := fields.map fun (name, value) => name.toList ++ ": ".toList ++ value
  kind.toList ++ " \x7b ".toList ++ ", ".toList.intercalate shown ++ " \x7d".toList

/-- A selector. -/
def showSelector : Selector → List Char
  | .child name => showFields "CompoundChild" [("name", Text.escape name)]
  | .childMatching name pattern =>
      showFields "MatchObject" [("name", Text.escape name), ("pattern", showPattern pattern)]
  | .rootMatching pattern => showFields "MatchRootObject" [("pattern", showPattern pattern)]
  | .elements => "AllElements".toList
  | .element index => showFields "IndexedElement" [("index", Numeral.ofInt index.toInt)]
  | .elementsMatching pattern => showFields "MatchElement" [("pattern", showPattern pattern)]

/-- A text with spaces after it, at least as long as the given width. -/
def pad (width : Nat) (text : List Char) : List Char :=
  text ++ List.replicate (width - text.length) ' '

/-- The line of one selector. -/
def line (path : Path) (ordinal : Nat) (selector : Selector) : List Char :=
  let text := pad 20 (path.textThrough ordinal).toList
  "  ".toList ++ text ++ ' ' :: (showSelector selector ++ ['\n'])

end Listing

/-- The listing of a path. -/
def Path.listing (path : Path) : String :=
  let lines := path.selectors.zipIdx.flatMap fun (selector, ordinal) =>
    Listing.line path ordinal selector
  s!"Path: {path.text}\n" ++ String.ofList lines

example : Path.listing ⟨"a", [⟨.child "a", 1⟩]⟩
    = "Path: a\n  a                    CompoundChild \x7b name: \"a\" \x7d\n" := by decide +kernel

end TreeQuery
