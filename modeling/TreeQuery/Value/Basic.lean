import TreeQuery.Number.Binary64

/-!
# Value trees

A value is a compound, a list or a scalar.  A compound is a list of entries with
distinct keys, in the order in which the keys were first inserted.  Writing to a
key that is there keeps its place, and a new key goes to the end.

The entries are a plain list, so the laws of `Compound` are laws of lists.  Every
function here keeps the keys distinct.  `Compound.get?_insert` says what an
insertion does to every key.
-/

namespace TreeQuery

/-- A leaf of a tree. -/
inductive Scalar where
  /-- A truth value. -/
  | bool (b : Bool)
  /-- An integer of 64 bits. -/
  | int (n : Int64)
  /-- A float. -/
  | float (x : Binary64)
  /-- A text. -/
  | string (s : String)
deriving DecidableEq, Repr

/-- A tree. -/
inductive Value where
  /-- Named children, in order. -/
  | compound (entries : List (String × Value))
  /-- Elements, in order. -/
  | list (items : List Value)
  /-- A leaf. -/
  | scalar (s : Scalar)
deriving Repr, Inhabited

/-- The entries of a compound, in order of insertion. -/
abbrev Compound := List (String × Value)

/-- What a value is, in messages. -/
inductive Kind where
  /-- A compound. -/
  | compound
  /-- A list. -/
  | list
  /-- A truth value. -/
  | bool
  /-- An integer. -/
  | int
  /-- A float. -/
  | float
  /-- A text. -/
  | string
deriving DecidableEq, Repr

/-- The name of a kind in messages. -/
def Kind.name : Kind → String
  | .compound => "compound"
  | .list => "list"
  | .bool => "bool"
  | .int => "int"
  | .float => "float"
  | .string => "string"

/-- The kind of a leaf. -/
def Scalar.kind : Scalar → Kind
  | .bool _ => .bool
  | .int _ => .int
  | .float _ => .float
  | .string _ => .string

/-- The kind of a value. -/
def Value.kind : Value → Kind
  | .compound _ => .compound
  | .list _ => .list
  | .scalar s => s.kind

/-- The number of children, none for a leaf. -/
def Value.size? : Value → Option Nat
  | .compound entries => some entries.length
  | .list items => some items.length
  | .scalar _ => none

/-! ## Compounds -/

namespace Compound

/-- The value of a key. -/
def get? : Compound → String → Option Value
  | [], _ => none
  | (name, value) :: rest, key => if name = key then some value else get? rest key

/-- Write a value to a key.  A new key goes to the end. -/
def insert : Compound → String → Value → Compound
  | [], key, value => [(key, value)]
  | (name, old) :: rest, key, value =>
      if name = key then (name, value) :: rest else (name, old) :: insert rest key value

/-- Take a key away.  The other keys keep their order. -/
def erase : Compound → String → Compound
  | [], _ => []
  | (name, value) :: rest, key => if name = key then rest else (name, value) :: erase rest key

/-- The compound with the given entries, inserted one after the other.  A repeated
key keeps its first place and gets its last value. -/
def ofList (entries : List (String × Value)) : Compound :=
  entries.foldl (fun compound (key, value) => insert compound key value) []

/-- The keys in order. -/
def keys (compound : Compound) : List String := compound.map Prod.fst

/-- After an insertion the key has the new value and every other key its old
one. -/
theorem get?_insert (compound : Compound) (key other : String) (value : Value) :
    get? (insert compound key value) other
      = if key = other then some value else get? compound other := by
  induction compound with
  | nil => rfl
  | cons entry rest ih =>
      obtain ⟨name, old⟩ := entry
      by_cases hname : name = key
      · subst hname
        by_cases hother : name = other <;> simp [insert, get?, hother]
      · by_cases hother : name = other
        · subst hother
          simp [insert, get?, hname, Ne.symm hname]
        · simp [insert, get?, hname, hother, ih]

/-- An insertion leaves the keys alone or adds the new one at the end. -/
theorem keys_insert (compound : Compound) (key : String) (value : Value) :
    keys (insert compound key value)
      = if key ∈ keys compound then keys compound else keys compound ++ [key] := by
  induction compound with
  | nil => rfl
  | cons entry rest ih =>
      obtain ⟨name, old⟩ := entry
      by_cases hname : name = key
      · simp [insert, keys, hname]
      · simp only [insert, if_neg hname]
        simp only [keys, List.map_cons, List.mem_cons] at ih ⊢
        rw [ih]
        by_cases hmem : key ∈ rest.map Prod.fst <;> simp [hmem, Ne.symm hname]

end Compound

example : (Compound.ofList [("a", .list []), ("b", .list []), ("a", .compound [])]).keys
    = ["a", "b"] := by decide

end TreeQuery
