import TreeQuery.Number.Binary64

/-!
# JSON documents

A document is a tree of the six kinds of JSON.  A number is either an integer,
which is exact, or a float.

The members of an object are sorted by key, and a key occurs once.
`Json.insertMember` keeps them so: a key that is there gets the new value.  Keys
are compared by code points, which is also the order of their UTF-8 bytes.
-/

namespace TreeQuery

/-- A JSON document. -/
inductive Json where
  /-- The null. -/
  | null
  /-- A truth value. -/
  | bool (b : Bool)
  /-- A number without fraction and power of ten. -/
  | integer (n : Int)
  /-- Any other number. -/
  | float (x : Binary64)
  /-- A text. -/
  | string (s : String)
  /-- A sequence. -/
  | array (items : List Json)
  /-- Named members. -/
  | object (members : List (String × Json))
deriving Repr, Inhabited

namespace Json

/-- Add a member to members that are sorted by key, or give its key a new
value. -/
def insertMember (key : String) (value : Json) : List (String × Json) → List (String × Json)
  | [] => [(key, value)]
  | (name, old) :: rest =>
      if key < name then (key, value) :: (name, old) :: rest
      else if key = name then (key, value) :: rest
      else (name, old) :: insertMember key value rest

/-- The members of a list, each put in its place.  Of equal keys the last one
counts. -/
def sortMembers (members : List (String × Json)) : List (String × Json) :=
  members.foldl (fun sorted (key, value) => insertMember key value sorted) []

example : (sortMembers [("b", .null), ("a", .null), ("b", .bool true)]).map Prod.fst
    = ["a", "b"] := by decide

end Json

end TreeQuery
