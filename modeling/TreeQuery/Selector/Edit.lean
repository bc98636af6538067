import TreeQuery.Selector.Locate
import TreeQuery.Supply

/-!
# Edits by a selector

Three edits of one value, each by what a selector picks in it.

*Ensuring* makes what the selector picks if it is missing.  A missing child is
taken from the supply, a missing match is a copy of its pattern, and an empty list
gets one element for `[]`.  Nothing is made for an index or a root filter, nor in
a value of the wrong kind.  A child that is there but does not match stays as it
is and is not picked.

*Writing* puts values of the supply where the selector picks, and a missing child
is added too.  A value that equals the old one is not put, and only the places
that changed are counted.  A list under `[]` is refilled as a whole, each element
with a value of its own, unless all elements equal the first value taken.

*Erasing* takes away what the selector picks.
-/

namespace TreeQuery

namespace Selector

/-! ## Ensuring -/

/-- Make what the selector picks if it is missing.  The answer has the addresses
of what is picked then. -/
def ensure : Selector → Value → Supplied (Value × List Address)
  | .child name, .compound entries =>
      if (Compound.get? entries name).isSome then pure (.compound entries, [[.key name]])
      else do
        let value ← Supply.next
        pure (.compound (Compound.insert entries name value), [[.key name]])
  | .childMatching name pattern, .compound entries =>
      match Compound.get? entries name with
      | none => pure (.compound (Compound.insert entries name (.compound pattern)), [[.key name]])
      | some old =>
          pure (.compound entries, if pattern.accepts old then [[.key name]] else [])
  | .elements, .list [] => do
      let value ← Supply.next
      pure (.list [value], [[.index 0]])
  | .elementsMatching pattern, .list items =>
      let grown :=
        if items.any pattern.accepts then items else items ++ [.compound pattern]
      pure (.list grown, Selector.elementsMatching pattern |>.locate (.list grown))
  | selector, value => pure (value, selector.locate value)

/-! ## Writing -/

/-- Put a value in the place of an old one unless they are equal.  The answer
counts the change. -/
def overwrite (old new : Value) : Value × Nat := if old.equal new then (old, 0) else (new, 1)

/-- Overwrite every element that satisfies a condition with a value of the
supply.  The answer counts the changes. -/
def overwriteEach (condition : Value → Bool) : List Value → Supplied (List Value × Nat)
  | [] => pure ([], 0)
  | item :: rest =>
      if condition item then do
        let value ← Supply.next
        let (written, changed) := overwrite item value
        let (others, more) ← overwriteEach condition rest
        pure (written :: others, changed + more)
      else do
        let (others, more) ← overwriteEach condition rest
        pure (item :: others, more)

/-- Refill a list that is not empty, unless all elements equal the first value
taken.  The answer counts the elements that differ from it. -/
def refill (items : List Value) : Supplied (List Value × Nat) := do
  let first ← Supply.next
  let changed := items.countP fun item => !item.equal first
  if changed = 0 then pure (items, 0)
  else do
    let others ← Supply.take (items.length - 1)
    pure (first :: others, changed)

/-- Write where the selector picks.  The answer counts the changes. -/
def write : Selector → Value → Supplied (Value × Nat)
  | .child name, .compound entries => do
      let value ← Supply.next
      if (Compound.get? entries name).any (·.equal value) then pure (.compound entries, 0)
      else pure (.compound (Compound.insert entries name value), 1)
  | .childMatching name pattern, .compound entries =>
      match Compound.get? entries name with
      | some old =>
          if pattern.accepts old then do
            let value ← Supply.next
            let (written, changed) := overwrite old value
            pure (.compound (Compound.insert entries name written), changed)
          else pure (.compound entries, 0)
      | none => pure (.compound entries, 0)
  | .elements, .list [] => do
      let value ← Supply.next
      pure (.list [value], 1)
  | .elements, .list items => do
      let (written, changed) ← refill items
      pure (.list written, changed)
  | .element index, .list items =>
      match resolveIndex index items.length with
      | some position => do
          let value ← Supply.next
          let (written, changed) := overwrite (items.getD position value) value
          pure (.list (items.set position written), changed)
      | none => pure (.list items, 0)
  | .elementsMatching pattern, .list items => do
      let (written, changed) ← overwriteEach pattern.accepts items
      pure (.list written, changed)
  | _, value => pure (value, 0)

/-! ## Erasing -/

/-- Take away what the selector picks.  The answer counts it.  A value cannot be
taken away from itself, so a root filter erases nothing. -/
def erase : Selector → Value → Value × Nat
  | .child name, .compound entries =>
      if (Compound.get? entries name).isSome then (.compound (Compound.erase entries name), 1)
      else (.compound entries, 0)
  | .childMatching name pattern, .compound entries =>
      if (Compound.get? entries name).any pattern.accepts then
        (.compound (Compound.erase entries name), 1)
      else (.compound entries, 0)
  | .elements, .list items => (.list [], items.length)
  | .element index, .list items =>
      match resolveIndex index items.length with
      | some position => (.list (items.eraseIdx position), 1)
      | none => (.list items, 0)
  | .elementsMatching pattern, .list items =>
      (.list (items.filter fun item => !pattern.accepts item), items.countP pattern.accepts)
  | _, value => (value, 0)

end Selector

end TreeQuery
