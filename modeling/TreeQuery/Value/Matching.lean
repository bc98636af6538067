import TreeQuery.Value.Basic

/-!
# Equality and matching

Two relations between values are decided here.

*Equality* compares whole trees.  The order of the keys of a compound does not
count, and numbers are compared as `Binary64.equal` does.  So a tree with a
missing number differs from itself.

A *pattern accepts* a candidate that has at least what the pattern has.  Every key
of a compound pattern must be in the candidate, with an accepted value.  A list
pattern accepts the lists whose first elements it accepts one by one.  A scalar
accepts the scalars equal to it.

Both are written by structural recursion on the first tree, with one function for
the entries of a compound and one for the elements of a list.
-/

namespace TreeQuery

/-- Equality of leaves.  An integer never equals a float. -/
def Scalar.equal : Scalar → Scalar → Bool
  | .bool a, .bool b => a == b
  | .int a, .int b => a == b
  | .float a, .float b => a.equal b
  | .string a, .string b => a == b
  | _, _ => false

/-! ## Equality of trees -/

mutual

/-- Equality of trees. -/
def Value.equal : Value → Value → Bool
  | .compound a, .compound b => a.length == b.length && Value.equalEntries a b
  | .list a, .list b => Value.equalItems a b
  | .scalar s, .scalar t => s.equal t
  | _, _ => false

/-- Every entry of the first compound has an equal one in the second. -/
def Value.equalEntries : List (String × Value) → Compound → Bool
  | [], _ => true
  | (key, value) :: rest, other =>
      (match Compound.get? other key with
        | some found => Value.equal value found
        | none => false)
      && Value.equalEntries rest other

/-- The lists are equally long and equal element by element. -/
def Value.equalItems : List Value → List Value → Bool
  | [], [] => true
  | a :: as, b :: bs => Value.equal a b && Value.equalItems as bs
  | _, _ => false

end

/-! ## Patterns -/

mutual

/-- The pattern accepts the candidate. -/
def Value.accepts : Value → Value → Bool
  | .compound pattern, .compound candidate => Value.acceptsEntries pattern candidate
  | .list pattern, .list candidate => Value.acceptsItems pattern candidate
  | .scalar s, .scalar t => s.equal t
  | _, _ => false

/-- Every entry of the pattern accepts the entry of the candidate with its key. -/
def Value.acceptsEntries : List (String × Value) → Compound → Bool
  | [], _ => true
  | (key, pattern) :: rest, candidate =>
      (match Compound.get? candidate key with
        | some found => Value.accepts pattern found
        | none => false)
      && Value.acceptsEntries rest candidate

/-- The candidate starts with elements that the pattern accepts one by one. -/
def Value.acceptsItems : List Value → List Value → Bool
  | [], _ => true
  | pattern :: patterns, candidate :: candidates =>
      Value.accepts pattern candidate && Value.acceptsItems patterns candidates
  | _ :: _, [] => false

end

/-- A compound as a pattern. -/
def Compound.accepts (pattern : Compound) (candidate : Value) : Bool :=
  Value.accepts (.compound pattern) candidate

@[simp] theorem Value.accepts_compound (pattern candidate : Compound) :
    Value.accepts (.compound pattern) (.compound candidate)
      = Value.acceptsEntries pattern candidate := rfl

@[simp] theorem Value.accepts_list (pattern candidate : List Value) :
    Value.accepts (.list pattern) (.list candidate) = Value.acceptsItems pattern candidate := rfl

@[simp] theorem Value.accepts_scalar (s t : Scalar) :
    Value.accepts (.scalar s) (.scalar t) = s.equal t := rfl

/-! ## Conditions on all leaves -/

mutual

/-- All leaves of the tree satisfy a condition. -/
def Value.allScalars (condition : Scalar → Bool) : Value → Bool
  | .compound entries => Value.allScalarsEntries condition entries
  | .list items => Value.allScalarsItems condition items
  | .scalar s => condition s

/-- The same for the values of all entries. -/
def Value.allScalarsEntries (condition : Scalar → Bool) : List (String × Value) → Bool
  | [] => true
  | (_, value) :: rest =>
      Value.allScalars condition value && Value.allScalarsEntries condition rest

/-- The same for all elements. -/
def Value.allScalarsItems (condition : Scalar → Bool) : List Value → Bool
  | [] => true
  | item :: rest => Value.allScalars condition item && Value.allScalarsItems condition rest

end

/-- No number of the tree is missing. -/
def Value.isNaNFree (value : Value) : Bool :=
  value.allScalars fun
    | .float x => !x.isNaN
    | _ => true

/-- All floats of the tree are finite. -/
def Value.isFinite (value : Value) : Bool :=
  value.allScalars fun
    | .float x => x.isFinite
    | _ => true

/-- The order of keys does not count. -/
example : Value.equal (.compound [("a", .list []), ("b", .compound [])])
    (.compound [("b", .compound []), ("a", .list [])]) = true := by decide
/-- A longer list is accepted, a shorter one is not. -/
example : Value.accepts (.list [.list []]) (.list [.list [], .list []]) = true := by decide
example : Value.accepts (.list [.list [], .list []]) (.list [.list []]) = false := by decide
/-- A missing number makes a tree differ from itself. -/
example : Value.equal (.list [.scalar (.float .nan)]) (.list [.scalar (.float .nan)]) = false := by
  decide

end TreeQuery
