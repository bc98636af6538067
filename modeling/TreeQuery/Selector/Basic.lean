import TreeQuery.Value.Basic

/-!
# Selectors

A selector is one step of a path.  It picks locations below one value.

* `key` picks the child with that key.
* `key{…}` picks that child if the filter accepts it.
* `{…}`, which may only come first, picks the value itself if the filter accepts
  it.
* `[]` picks all elements of a list.
* `[i]` picks one element, counted from the end if `i` is negative.
* `[{…}]` picks the elements that the filter accepts.
-/

namespace TreeQuery

/-- One step of a path. -/
inductive Selector where
  /-- The child with a key. -/
  | child (name : String)
  /-- The child with a key, if the pattern accepts it. -/
  | childMatching (name : String) (pattern : Compound)
  /-- The value itself, if the pattern accepts it. -/
  | rootMatching (pattern : Compound)
  /-- All elements of a list. -/
  | elements
  /-- One element of a list. -/
  | element (index : Int64)
  /-- The elements of a list that the pattern accepts. -/
  | elementsMatching (pattern : Compound)
deriving Repr

/-- The empty container in which a selector can pick something: a list for the
selectors of elements, a compound for the others. -/
def Selector.container : Selector → Value
  | .child _ | .childMatching .. | .rootMatching _ => .compound []
  | .elements | .element _ | .elementsMatching _ => .list []

end TreeQuery
