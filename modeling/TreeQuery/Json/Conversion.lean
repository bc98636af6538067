import TreeQuery.Json.Basic
import TreeQuery.Number.Numeral
import TreeQuery.Value.Basic

/-!
# Values and JSON documents

Every value has a document.  The members of an object are sorted, so the order of
the keys of a compound is lost.  A float that is no finite number becomes null.

A document has a value unless it holds a null.  Then the first null in the order
of the document is reported.  An integer that does not fit 64 bits becomes the
nearest float.

The place of the null is a *pointer*: the keys and positions on the way to it.  Its
text has a slash before each of them.  A slash in a key is written `~1`, and a
tilde `~0`.
-/

namespace TreeQuery

/-! ## From values to documents -/

mutual

/-- The document of a value. -/
def Value.toJson : Value → Json
  | .compound entries => .object (Value.toJsonMembers entries)
  | .list items => .array (Value.toJsonItems items)
  | .scalar (.bool b) => .bool b
  | .scalar (.int n) => .integer n.toInt
  | .scalar (.float x) => if x.isFinite then .float x else .null
  | .scalar (.string s) => .string s

/-- The documents of the entries of a compound, sorted by key. -/
def Value.toJsonMembers : List (String × Value) → List (String × Json)
  | [] => []
  | (key, value) :: rest => Json.insertMember key value.toJson (Value.toJsonMembers rest)

/-- The documents of the elements of a list. -/
def Value.toJsonItems : List Value → List Json
  | [] => []
  | item :: rest => item.toJson :: Value.toJsonItems rest

end

/-! ## Pointers -/

namespace Json

/-- The keys and positions on the way to a place in a document. -/
abbrev Pointer := List String

/-- A character of a pointer token. -/
def Pointer.escapeChar (c : Char) : List Char :=
  if c = '~' then ['~', '0'] else if c = '/' then ['~', '1'] else [c]

/-- The text of a pointer. -/
def Pointer.text (pointer : Pointer) : String :=
  String.ofList (pointer.flatMap fun token => '/' :: token.toList.flatMap Pointer.escapeChar)

/-- A null in a document, which no value stands for. -/
structure UnsupportedNull where
  /-- Where the null is. -/
  location : Pointer
deriving DecidableEq, Repr

/-- The failure in words. -/
def UnsupportedNull.message (error : UnsupportedNull) : String :=
  s!"Cannot convert null at '{error.location.text}' to a value"

end Json

/-! ## From documents to values -/

mutual

/-- The value of a document that is found at a pointer. -/
def Value.ofJsonAt (pointer : Json.Pointer) : Json → Except Json.UnsupportedNull Value
  | .null => .error ⟨pointer⟩
  | .bool b => .ok (.scalar (.bool b))
  | .integer n =>
      .ok (.scalar (if Numeral.inInt64 n then .int (Int64.ofInt n) else .float (.ofInt n)))
  | .float x => .ok (.scalar (.float x))
  | .string s => .ok (.scalar (.string s))
  | .array items => (Value.ofJsonItems pointer 0 items).map .list
  | .object members => (Value.ofJsonMembers pointer members).map fun entries =>
      .compound (Compound.ofList entries)

/-- The values of the elements of an array from a position on. -/
def Value.ofJsonItems (pointer : Json.Pointer) :
    Nat → List Json → Except Json.UnsupportedNull (List Value)
  | _, [] => .ok []
  | position, item :: rest => do
      let first ← Value.ofJsonAt (pointer ++ [String.ofList (Numeral.ofNat position)]) item
      let others ← Value.ofJsonItems pointer (position + 1) rest
      pure (first :: others)

/-- The values of the members of an object, in order. -/
def Value.ofJsonMembers (pointer : Json.Pointer) :
    List (String × Json) → Except Json.UnsupportedNull (List (String × Value))
  | [] => .ok []
  | (key, item) :: rest => do
      let first ← Value.ofJsonAt (pointer ++ [key]) item
      let others ← Value.ofJsonMembers pointer rest
      pure ((key, first) :: others)

end

/-- The value of a document. -/
def Value.ofJson (document : Json) : Except Json.UnsupportedNull Value :=
  Value.ofJsonAt [] document

example : Json.Pointer.text ["a/b", "0", "~"] = "/a~1b/0/~0" := by rfl
example : (match Value.ofJson (.object [("a", .array [.bool true, .null])]) with
    | .error e => some e.location
    | .ok _ => none) = some ["a", "1"] := by decide +kernel

end TreeQuery
