import TreeQuery.Proofs.Json.Conversion
import TreeQuery.Proofs.Json.Pointer

/-!
# One buffer for all pointers

The conversion of a document is given the pointer to where it is.  It could as well keep the
text of this pointer in a single buffer.  Before it goes into a part it appends a slash and
the escaped token, and afterwards it cuts the buffer off where it was before.  After a
failure nothing is cut off any more, so the buffer holds the text of the pointer to the null.

Both conversions come to the same (`Value.run_ofJsonBuffered`): around every part the buffer
has the text of the pointer to the container (`Value.run_withToken`).
-/

namespace TreeQuery

namespace Value

/-! ## The conversion -/

/-- A conversion that keeps the text of a pointer in a buffer, and fails with that text. -/
abbrev Buffered := StateT (List Char) (Except (List Char))

/-- Go on with one more token in the buffer, and cut it off again. -/
def withToken {α : Type} (token : List Char) (inner : Buffered α) : Buffered α := do
  let mark := (← get).length
  modify (· ++ '/' :: token)
  let result ← inner
  modify (·.take mark)
  pure result

mutual

/-- The value of a document that is found where the buffer points to. -/
def ofJsonBuffered : Json → Buffered Value
  | .null => do throw (← get)
  | .bool b => pure (.scalar (.bool b))
  | .integer n =>
      pure (.scalar (if Numeral.inInt64 n then .int (Int64.ofInt n) else .float (.ofInt n)))
  | .float x => pure (.scalar (.float x))
  | .string s => pure (.scalar (.string s))
  | .array items => do return .list (← ofJsonBufferedItems 0 items)
  | .object members => do return .compound (Compound.ofList (← ofJsonBufferedMembers members))

/-- The values of the elements of an array from a position on. -/
def ofJsonBufferedItems : Nat → List Json → Buffered (List Value)
  | _, [] => pure []
  | position, item :: rest => do
      let first ← withToken (Numeral.ofNat position) (ofJsonBuffered item)
      let others ← ofJsonBufferedItems (position + 1) rest
      pure (first :: others)

/-- The values of the members of an object, in order.  In a key all tildes are escaped
first, and then all slashes. -/
def ofJsonBufferedMembers : List (String × Json) → Buffered (List (String × Value))
  | [] => pure []
  | (key, item) :: rest => do
      let token := (key.toList.flatMap Json.Pointer.escapeTilde).flatMap Json.Pointer.escapeSlash
      let first ← withToken token (ofJsonBuffered item)
      let others ← ofJsonBufferedMembers rest
      pure ((key, first) :: others)

end

/-! ## What is in the buffer -/

/-- What a conversion with a buffer comes to: the buffer is as before, or it has the text of
the pointer to the null. -/
def spelled {α : Type} (pointer : Json.Pointer) :
    Except Json.UnsupportedNull α → Except (List Char) (α × List Char)
  | .ok result => .ok (result, pointer.text.toList)
  | .error failure => .error failure.location.text.toList

/-- After the part, the buffer is as before. -/
theorem run_withToken {pointer : Json.Pointer} {token : String} {α : Type} {inner : Buffered α}
    {outcome : Except Json.UnsupportedNull α}
    (h : inner.run (pointer ++ [token]).text.toList = spelled (pointer ++ [token]) outcome) :
    (withToken (token.toList.flatMap Json.Pointer.escapeChar) inner).run pointer.text.toList
      = spelled pointer outcome := by
  rw [Json.Pointer.text_concat] at h
  show ((inner.run (pointer.text.toList ++ _)).bind fun result =>
    .ok (result.1, result.2.take pointer.text.toList.length)) = _
  rw [h]
  cases outcome with
  | error failure => rfl
  | ok result =>
      rw [spelled, Json.Pointer.text_concat]
      exact congrArg (fun buffer => Except.ok (result, buffer)) List.take_left

/-- The buffer does not change what the conversion gives. -/
def Buffers (document : Json) : Prop :=
  ∀ pointer : Json.Pointer,
    (ofJsonBuffered document).run pointer.text.toList = spelled pointer (ofJsonAt pointer document)

theorem run_ofJsonBufferedItems {items : List Json} (h : ∀ item ∈ items, Buffers item)
    (pointer : Json.Pointer) (position : Nat) :
    (ofJsonBufferedItems position items).run pointer.text.toList
      = spelled pointer (ofJsonItems pointer position items) := by
  induction items generalizing position with
  | nil => rfl
  | cons item rest ih =>
      obtain ⟨hitem, hrest⟩ := List.forall_mem_cons.mp h
      have hfirst := run_withToken (hitem (pointer ++ [Json.indexToken position]))
      rw [Json.escape_indexToken] at hfirst
      rw [ofJsonBufferedItems, ofJsonItems, StateT.run_bind, hfirst, Json.indexToken]
      cases ofJsonAt (pointer ++ [String.ofList (Numeral.ofNat position)]) item with
      | error failure => rfl
      | ok first =>
          show ((ofJsonBufferedItems (position + 1) rest).run pointer.text.toList).bind _ = _
          rw [ih hrest]
          cases ofJsonItems pointer (position + 1) rest with
          | error failure => rfl
          | ok others => rfl

theorem run_ofJsonBufferedMembers {members : List (String × Json)}
    (h : ∀ member ∈ members, Buffers member.2) (pointer : Json.Pointer) :
    (ofJsonBufferedMembers members).run pointer.text.toList
      = spelled pointer (ofJsonMembers pointer members) := by
  induction members with
  | nil => rfl
  | cons member rest ih =>
      obtain ⟨key, item⟩ := member
      obtain ⟨hitem, hrest⟩ := List.forall_mem_cons.mp h
      have hfirst := run_withToken (hitem (pointer ++ [key]))
      rw [ofJsonBufferedMembers, ofJsonMembers, Json.Pointer.escape_twice, StateT.run_bind, hfirst]
      cases ofJsonAt (pointer ++ [key]) item with
      | error failure => rfl
      | ok first =>
          show ((ofJsonBufferedMembers rest).run pointer.text.toList).bind _ = _
          rw [ih hrest]
          cases ofJsonMembers pointer rest with
          | error failure => rfl
          | ok others => rfl

theorem run_ofJsonBuffered {document : Json} (hformed : document.WellFormed) :
    Buffers document := by
  induction hformed with
  | null => exact fun _ => rfl
  | bool b => exact fun _ => rfl
  | integer n => exact fun _ => rfl
  | float hfinite => exact fun _ => rfl
  | string s => exact fun _ => rfl
  | @array items _ ih =>
      intro pointer
      rw [ofJsonBuffered, ofJsonAt, StateT.run_bind, run_ofJsonBufferedItems ih]
      cases ofJsonItems pointer 0 items <;> rfl
  | @object members _ _ ih =>
      intro pointer
      rw [ofJsonBuffered, ofJsonAt, StateT.run_bind, run_ofJsonBufferedMembers ih]
      cases ofJsonMembers pointer members <;> rfl

end Value

end TreeQuery
