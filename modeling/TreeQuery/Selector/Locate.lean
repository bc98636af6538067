import TreeQuery.Address
import TreeQuery.Selector.Basic
import TreeQuery.Value.Matching

/-!
# What a selector picks

`Selector.locate` gives the addresses, below one value, of what a selector picks
there.  They have one step each, except that a root filter picks the value itself
and so gives the empty address.  They come in the order of the tree.  A selector
that does not fit the kind of the value picks nothing.

An index from the end counts the last element as `-1`.  `resolveIndex_bound` says
that the position it stands for is one of the list.

An edit that makes nothing goes down the tree by `Selector.enter`.  It goes over the
children of a value, each with the step to it, and keeps those that fit.
-/

namespace TreeQuery

/-- The position in a list that an index stands for, none when it is outside. -/
def resolveIndex (index : Int64) (length : Nat) : Option Nat :=
  let position := if index.toInt < 0 then index.toInt + length else index.toInt
  if 0 ≤ position ∧ position < length then some position.toNat else none

/-- The position is inside the list. -/
theorem resolveIndex_bound {index : Int64} {length position : Nat}
    (h : resolveIndex index length = some position) : position < length := by
  simp only [resolveIndex] at h
  generalize (if index.toInt < 0 then index.toInt + length else index.toInt) = place at h
  split at h
  · cases h
    omega
  · cases h

/-- The positions of the elements that satisfy a condition, in order, where the
first element has the given position. -/
def positionsFrom (condition : Value → Bool) : Nat → List Value → List Nat
  | _, [] => []
  | position, item :: rest =>
      if condition item then position :: positionsFrom condition (position + 1) rest
      else positionsFrom condition (position + 1) rest

namespace Selector

/-- The addresses below a value of what the selector picks there. -/
def locate : Selector → Value → List Address
  | .child name, .compound entries =>
      if (Compound.get? entries name).isSome then [[.key name]] else []
  | .childMatching name pattern, .compound entries =>
      if (Compound.get? entries name).any pattern.accepts then [[.key name]] else []
  | .rootMatching pattern, value => if pattern.accepts value then [[]] else []
  | .elements, .list items =>
      (positionsFrom (fun _ => true) 0 items).map fun position => [.index position]
  | .element index, .list items =>
      (resolveIndex index items.length).toList.map fun position => [.index position]
  | .elementsMatching pattern, .list items =>
      (positionsFrom pattern.accepts 0 items).map fun position => [.index position]
  | _, _ => []

/-- The addresses of what the selector picks below all given locations of a
tree. -/
def locateEach (selector : Selector) (root : Value) (addresses : List Address) : List Address :=
  addresses.flatMap fun address =>
    match root.get? address with
    | some value => (selector.locate value).map (address ++ ·)
    | none => []

/-! ## Entering -/

/-- The addresses below a value at which an edit goes on. -/
def enter : Selector → Value → List Address
  | .rootMatching pattern, value => if pattern.accepts value then [[]] else []
  | .child name, .compound entries =>
      (Compound.get? entries name).toList.map fun _ => [.key name]
  | .childMatching name pattern, .compound entries =>
      ((Compound.get? entries name).filter pattern.accepts).toList.map fun _ => [.key name]
  | .elements, .list items => items.zipIdx.map fun (_, position) => [.index position]
  | .element index, .list items =>
      match resolveIndex index items.length with
      | some position => items[position]?.toList.map fun _ => [.index position]
      | none => []
  | .elementsMatching pattern, .list items =>
      (items.zipIdx.filter fun (item, _) => pattern.accepts item).map
        fun (_, position) => [.index position]
  | _, _ => []

/-- The addresses at which an edit goes on below all given locations of a tree. -/
def enterEach (selector : Selector) (root : Value) (addresses : List Address) : List Address :=
  addresses.flatMap fun address =>
    match root.get? address with
    | some value => (selector.enter value).map (address ++ ·)
    | none => []

end Selector

example : resolveIndex (-1) 3 = some 2 := by decide +kernel
example : resolveIndex (-4) 3 = none := by decide +kernel
example : resolveIndex 3 3 = none := by decide +kernel

end TreeQuery
