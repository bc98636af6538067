import TreeQuery.Path.Reader
import TreeQuery.Proofs.Literal.Advance

/-!
# Where readers of paths stop

A reader of paths moves the cursor forwards over some text, also when the text is no path
(`advances_read`).
-/

namespace TreeQuery.Path

open Reader

/-! ## Selectors -/

theorem advances_readBareKey : Advances id readBareKey := by
  refine (advances_readWhile isKeyChar).bind fun key => (advances_pure _).ite ?_
  exact advances_peek.bind fun _ => advances_fail _

theorem advances_readFilter (limit : Nat) : Advances id (readFilter limit) :=
  Literal.advances_fromOutside (Literal.advances_readCompound limit)

theorem advances_readAfterKey (limit : Nat) (name : String) :
    Advances id (readAfterKey limit name) := by
  refine advances_peek.bind fun next => Advances.ite ?_ (advances_pure _)
  exact (advances_readFilter limit).map _

/-- The fault of an index is renamed, which does not move the cursor. -/
theorem stateAfter_readIndex (cursor : Cursor) :
    stateAfter (readIndex cursor) = stateAfter (readInteger cursor) := by
  unfold readIndex
  cases readInteger cursor with
  | ok index after => rfl
  | error error after =>
      obtain ⟨fault, position⟩ := error
      cases fault <;> rfl

theorem advances_readIndex : Advances id readIndex := by
  intro cursor
  rw [stateAfter_readIndex]
  exact advances_readInteger cursor

theorem advances_readInside (limit : Nat) : Advances id (readInside limit) := by
  refine advances_peek.bind fun next => ?_
  split
  · exact advances_fail _
  · exact (advances_readFilter limit).map _
  · exact advances_pure _
  · exact advances_readIndex.map _

theorem advances_readBrackets (limit : Nat) : Advances id (readBrackets limit) := by
  refine (advances_expect '[').bind fun _ => (advances_readInside limit).bind fun selector => ?_
  exact (advances_expect ']').map fun _ => selector

theorem advances_readSelector (limit : Nat) (first : Bool) :
    Advances id (readSelector limit first) := by
  refine advances_peek.bind fun next => ?_
  split
  · exact ((advances_readFilter limit).map _).ite (advances_fail _)
  · exact advances_readBrackets limit
  · exact (advances_readQuoted.bind fun name => advances_readAfterKey limit name).ite
      (advances_readBareKey.bind fun name => advances_readAfterKey limit name)

theorem advances_readJoint : Advances id readJoint := by
  refine advances_peek.bind fun next => ?_
  split
  · exact advances_pure false
  · exact advances_pure false
  · exact advances_pure true
  · exact advances_pure true
  · exact (advances_expect '.').map fun _ => true

/-! ## Whole paths -/

theorem advances_readSegments (limit start : Nat) (first : Bool) (fuel : Nat) :
    Advances id (readSegments limit start first fuel) := by
  induction fuel generalizing first with
  | zero => exact advances_fail _
  | succ fuel ih =>
      refine (advances_readSelector limit first).bind fun selector => advances_get fun cursor => ?_
      refine advances_readJoint.bind fun more => Advances.ite ?_ (advances_pure _)
      exact (ih false).map _

theorem advances_read (limit : Nat) : Advances id (read limit) := by
  refine advances_get fun start => ?_
  refine (advances_readSegments limit start.position true (start.rest.length + 1)).bind
    fun segments => ?_
  exact advances_get fun stop => advances_pure _

end TreeQuery.Path
