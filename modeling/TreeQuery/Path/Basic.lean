import TreeQuery.Selector.Basic
import TreeQuery.Text.Offset

/-!
# Paths

A path is a sequence of selectors.  Each selector picks locations below one value,
and the next selector goes on from all of them.

A path keeps its text, and for each selector the byte at which it ends there.  So
the text of every beginning of a path is at hand, and messages quote it.
-/

namespace TreeQuery

/-- A selector and the byte of the path at which its text ends. -/
structure Segment where
  /-- The selector. -/
  selector : Selector
  /-- The number of bytes of the path up to the end of the selector. -/
  stop : Nat
deriving Repr

/-- A path. -/
structure Path where
  /-- The text it was read from. -/
  text : String
  /-- Its selectors in order, with their ends in the text. -/
  segments : List Segment
deriving Repr

namespace Path

/-- The selectors in order. -/
def selectors (path : Path) : List Selector := path.segments.map Segment.selector

/-- The ends of the selectors in the text. -/
def stops (path : Path) : List Nat := path.segments.map Segment.stop

/-- The number of selectors. -/
def length (path : Path) : Nat := path.segments.length

/-- The text up to the end of a selector, counted from zero.  Past the last
selector this is the whole text. -/
def textThrough (path : Path) (ordinal : Nat) : String :=
  match path.segments[ordinal]? with
  | none => path.text
  | some segment =>
      match Text.splitBytes? segment.stop path.text.toList with
      | some (before, _) => String.ofList before
      | none => path.text

end Path

/-- No selector of this path failed, so its second beginning is the whole text. -/
example : Path.textThrough ⟨"a[0]", [⟨.child "a", 1⟩, ⟨.element 0, 4⟩]⟩ 0 = "a" := by rfl
example : Path.textThrough ⟨"a[0]", [⟨.child "a", 1⟩, ⟨.element 0, 4⟩]⟩ 2 = "a[0]" := by rfl

end TreeQuery
