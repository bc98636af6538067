import TreeQuery.Path.Basic
import TreeQuery.Selector.Locate

/-!
# What a path picks

The first selector of a path picks below the root, and every further selector
below all that the one before it picked.  When a selector picks nothing, the path
has failed there, and the error quotes the path through that selector.

The locations come in the order of the tree.
-/

namespace TreeQuery

/-- A path picked nothing.  The text is that of the path through the first selector
that picked nothing. -/
structure NotFound where
  /-- The beginning of the path. -/
  text : String
deriving DecidableEq, Repr

/-- The failure in words. -/
def NotFound.message (error : NotFound) : String := s!"Found no elements matching {error.text}"

namespace Path

/-- The locations that selectors pick one after the other, from given ones on.  The
failure is the number of the selector that picked nothing, counted from a given
number on. -/
def locateFrom (root : Value) : Nat → List Selector → List Address → Except Nat (List Address)
  | _, [], found => .ok found
  | ordinal, selector :: rest, found =>
      match selector.locateEach root found with
      | [] => .error ordinal
      | next => locateFrom root (ordinal + 1) rest next

/-- The failure at a selector of the path. -/
def notFound (path : Path) (ordinal : Nat) : NotFound := ⟨path.textThrough ordinal⟩

/-- The locations the path picks. -/
def locate (path : Path) (root : Value) : Except NotFound (List Address) :=
  (locateFrom root 0 path.selectors [[]]).mapError path.notFound

/-- The values the path picks. -/
def get (path : Path) (root : Value) : Except NotFound (List Value) :=
  (path.locate root).map fun found => found.filterMap root.get?

/-- The number of locations the path picks, zero when it fails. -/
def count (path : Path) (root : Value) : Nat :=
  match path.get root with
  | .ok found => found.length
  | .error _ => 0

end Path

end TreeQuery
