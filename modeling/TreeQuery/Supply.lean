import TreeQuery.Value.Basic

/-!
# Supplies of values

An edit that makes locations needs values to put there.  It takes them from a
supply, one at a time, and a value that was taken is not given again.  A supply
counts the values it has given, so the answers of an edit show how many it used.
-/

namespace TreeQuery

/-- A sequence of values of which some have been taken. -/
structure Supply where
  /-- The value of each number. -/
  value : Nat → Value
  /-- How many have been taken, which is the number of the next one. -/
  used : Nat

/-- A computation that takes values from a supply. -/
abbrev Supplied := StateM Supply

namespace Supply

/-- A supply of one value again and again. -/
def always (value : Value) : Supply := ⟨fun _ => value, 0⟩

/-- A supply that goes round a list of values. -/
def cycle (values : List Value) : Supply :=
  ⟨fun number => values.getD (number % values.length) (.list []), 0⟩

/-- Take the next value. -/
def next : Supplied Value := fun supply =>
  (supply.value supply.used, { supply with used := supply.used + 1 })

/-- Take some values in order. -/
def take : Nat → Supplied (List Value)
  | 0 => pure []
  | count + 1 => do
      let first ← next
      let rest ← take count
      pure (first :: rest)

end Supply

end TreeQuery
