import TreeQuery.Path.Locate
import TreeQuery.Selector.Edit

/-!
# Edits by a path

An edit by a path first ensures the locations of all selectors but the last, its
*parents*.  A container that is missing there is made in the kind that the next
selector needs.  Then the last selector edits every parent in turn.

An edit can fail on the way, and what it has made by then stays made.  So every
edit gives back a tree, whether it fails or not.

Erasing makes nothing and cannot fail.
-/

namespace TreeQuery

/-- Why values could not be put into lists. -/
inductive EditError where
  /-- The path picked nothing. -/
  | notFound (error : NotFound)
  /-- The path picked something that is no list. -/
  | expectedList (found : Kind)
  /-- The list has no such position. -/
  | invalidIndex (index : Int)
deriving DecidableEq, Repr

/-- The failure in words. -/
def EditError.message : EditError → String
  | .notFound error => error.message
  | .expectedList found => s!"Expected a list, got {found.name}"
  | .invalidIndex index => s!"Invalid list index {index}"

/-- Ensure what a selector picks below all given locations.  The answer has the
addresses of all that is picked then. -/
def Selector.ensureEach (selector : Selector) (addresses : List Address) (root : Value) :
    Supplied (Value × List Address) := do
  let (grown, picked) ← Value.editEach selector.ensure addresses root
  pure (grown, picked.flatMap fun (address, below) => below.map (address ++ ·))

namespace Path

/-! ## Ensuring -/

/-- Ensure the locations of all selectors but the last, from given locations on. -/
def ensureParentsFrom : Nat → List Selector → List Address → Value →
    Value × Except Nat (List Address)
  | ordinal, selector :: next :: rest, found, root =>
      let ((grown, picked), _) :=
        (selector.ensureEach found root).run (Supply.always next.container)
      match picked with
      | [] => (grown, .error ordinal)
      | _ :: _ => ensureParentsFrom (ordinal + 1) (next :: rest) picked grown
  | _, _, found, root => (root, .ok found)

/-- Ensure the locations of all selectors but the last.  The answer has their
addresses. -/
def ensureParents (path : Path) (root : Value) : Value × Except NotFound (List Address) :=
  let (grown, outcome) := ensureParentsFrom 0 path.selectors [[]] root
  (grown, outcome.mapError path.notFound)

/-- Ensure all locations of the path, with values of the supply for what the last
selector misses. -/
def ensure (path : Path) (root : Value) :
    Supplied (Value × Except NotFound (List Address)) := do
  let (grown, outcome) := path.ensureParents root
  match path.selectors.getLast?, outcome with
  | none, _ => pure (root, .ok [[]])
  | some _, .error error => pure (grown, .error error)
  | some last, .ok parents => do
      let (result, picked) ← last.ensureEach parents grown
      pure (result, .ok picked)

/-- Ensure all locations of the path, with copies of one value. -/
def ensureValue (path : Path) (root value : Value) :
    Value × Except NotFound (List Address) :=
  ((path.ensure root).run (Supply.always value)).1

/-! ## Writing and erasing -/

/-- The changes at all locations taken together. -/
def total (changes : List (Address × Nat)) : Nat := (changes.map Prod.snd).foldr (· + ·) 0

/-- Write values of the supply to all locations of the path.  The answer counts the
changes. -/
def write (path : Path) (root : Value) : Supplied (Value × Except NotFound Nat) := do
  let (grown, outcome) := path.ensureParents root
  match path.selectors.getLast?, outcome with
  | none, _ => pure (root, .ok 0)
  | some _, .error error => pure (grown, .error error)
  | some last, .ok parents => do
      let (result, changes) ← Value.editEach last.write parents grown
      pure (result, .ok (total changes))

/-- Write copies of one value to all locations of the path. -/
def writeValue (path : Path) (root value : Value) : Value × Except NotFound Nat :=
  ((path.write root).run (Supply.always value)).1

/-- The locations that an edit enters by selectors one after the other, from given ones
on.  It gives up at a selector that lets it in nowhere. -/
def enterFrom (root : Value) : List Selector → List Address → Option (List Address)
  | [], found => some found
  | selector :: rest, found =>
      match selector.enterEach root found with
      | [] => none
      | next => enterFrom root rest next

/-- Take away all that the path picks.  The answer counts it. -/
def erase (path : Path) (root : Value) : Value × Nat :=
  match path.selectors.getLast?, enterFrom root path.selectors.dropLast [[]] with
  | some last, some parents =>
      let (result, counts) :=
        Id.run (Value.editEach (fun value => pure (last.erase value)) parents root)
      (result, total counts)
  | _, _ => (root, 0)

/-! ## Putting values into lists -/

/-- Put values into a list one after the other, the first at a position and each
further one after the last. -/
def insertAt (position : Int) : List Value → List Value → Except EditError (List Value)
  | [], items => .ok items
  | value :: rest, items =>
      if 0 ≤ position ∧ position ≤ items.length then
        insertAt (position + 1) rest (items.insertIdx position.toNat value)
      else .error (.invalidIndex position)

/-- Put values into the list at every given location in turn, up to the first
failure.  The answer counts the lists. -/
def insertEach (index : Int) (values : List Value) : List Address → Value →
    Value × Except EditError Nat
  | [], root => (root, .ok 0)
  | address :: rest, root =>
      match root.get? address with
      | none => insertEach index values rest root
      | some (.list items) =>
          let position := if index < 0 then items.length + index + 1 else index
          match insertAt position values items with
          | .error error => (root, .error error)
          | .ok grown =>
              let (result, outcome) := insertEach index values rest (root.put address (.list grown))
              (result, outcome.map fun count => if values.isEmpty then count else count + 1)
      | some other => (root, .error (.expectedList other.kind))

/-- Put values into every list the path picks, and make an empty list where
something is missing.  The index `-1` means after the last element.  The answer
counts the lists that got values. -/
def insert (path : Path) (index : Int) (root : Value) (values : List Value) :
    Value × Except EditError Nat :=
  match path.ensureValue root (.list []) with
  | (grown, .error error) => (grown, .error (.notFound error))
  | (grown, .ok targets) => insertEach index values targets grown

end Path

end TreeQuery
