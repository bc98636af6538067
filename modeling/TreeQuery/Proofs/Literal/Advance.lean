import TreeQuery.Literal.Reader
import TreeQuery.Proofs.Advance

/-!
# Where readers of literals stop

A reader of literals moves the cursor forwards over some text, whatever the limit is and
however many containers count as open (`advances_readValue`, `advances_readCompound`).
-/

namespace TreeQuery.Literal

open Reader

variable {α : Type} {read : Reader α}

theorem stateAfter_onCursor (read : Reader α) (state : LiteralState) :
    (stateAfter (onCursor read state)).cursor = stateAfter (read state.cursor) := by
  unfold onCursor
  cases read state.cursor with
  | ok a cursor => rfl
  | error error cursor => rfl

theorem advances_onCursor (h : Advances id read) :
    Advances LiteralState.cursor (onCursor read) := by
  intro state
  rw [stateAfter_onCursor]
  exact h state.cursor

/-! ## The parts of containers -/

theorem advances_readKey : Advances id readKey := by
  refine advances_skipBlanks.bind fun _ => advances_peek.bind fun next => ?_
  refine advances_readQuoted.ite ((advances_readWhile _).bind fun word => ?_)
  exact (advances_pure _).ite ((advances_fail _).ite (advances_fail _))

theorem advances_readKeyMark : Advances id readKeyMark :=
  advances_skipBlanks.bind fun _ => advances_peek.bind fun _ =>
    advances_skip.ite (advances_fail _)

theorem advances_readSeparator (close : Char) : Advances id (readSeparator close) := by
  refine advances_skipBlanks.bind fun _ => advances_peek.bind fun found => ?_
  refine Advances.ite ?_ ((advances_pure _).ite (advances_fail _))
  refine advances_skip.bind fun _ => advances_skipBlanks.bind fun _ =>
    advances_peek.bind fun after => ?_
  exact (advances_fail _).ite (advances_pure _)

theorem advances_readBare : Advances id readBare :=
  (advances_readWhile _).bind fun _ => (advances_fail _).ite (advances_pure _)

theorem advances_readEntry {value : LiteralReader Value}
    (h : Advances LiteralState.cursor value) : Advances LiteralState.cursor (readEntry value) :=
  (advances_onCursor advances_readKey).bind fun _ =>
    (advances_onCursor advances_readKeyMark).bind fun _ => h.map _

section

variable {part : LiteralReader α}

theorem advances_readParts (h : Advances LiteralState.cursor part) (close : Char) (fuel : Nat) :
    Advances LiteralState.cursor (readParts close part fuel) := by
  induction fuel with
  | zero => exact advances_onCursor (advances_fail _)
  | succ fuel ih =>
      refine h.bind fun first => ?_
      refine (advances_onCursor (advances_readSeparator close)).bind fun more => ?_
      exact (ih.map _).ite (advances_pure _)

theorem advances_readPartsUntil (h : Advances LiteralState.cursor part) (close : Char) :
    Advances LiteralState.cursor (readPartsUntil close part) := by
  refine (advances_onCursor advances_peek).bind fun next => (advances_pure _).ite ?_
  exact advances_get fun state => advances_readParts h close (state.cursor.rest.length + 1)

/-! ## Containers and values -/

/-- The count of open containers is no place in the text. -/
theorem advances_depth (change : Nat → Nat) :
    Advances LiteralState.cursor
      (modify fun state => { state with depth := change state.depth }) :=
  advances_of_same fun _ => rfl

theorem advances_readContainer (h : Advances LiteralState.cursor part) (opening closing : Char) :
    Advances LiteralState.cursor (readContainer opening closing part) := by
  refine (advances_depth (· + 1)).bind fun _ => ?_
  refine (advances_onCursor (advances_expect opening)).bind fun _ => ?_
  refine (advances_onCursor advances_skipBlanks).bind fun _ => ?_
  refine (advances_readPartsUntil h closing).bind fun parts => ?_
  refine (advances_onCursor (advances_expect closing)).bind fun _ => ?_
  exact (advances_depth (· - 1)).map fun _ => parts

end

theorem advances_refuse (limit : Nat) :
    Advances LiteralState.cursor (refuse (α := α) limit) :=
  advances_onCursor (advances_fail _)

theorem advances_compoundOf {value : LiteralReader Value}
    (h : Advances LiteralState.cursor value) : Advances LiteralState.cursor (compoundOf value) :=
  (advances_readContainer (advances_readEntry h) _ _).map _

theorem advances_valueOf {compound : LiteralReader Compound} {list : LiteralReader (List Value)}
    (hcompound : Advances LiteralState.cursor compound)
    (hlist : Advances LiteralState.cursor list) :
    Advances LiteralState.cursor (valueOf compound list) := by
  refine (advances_onCursor advances_skipBlanks).bind fun _ =>
    (advances_onCursor advances_peek).bind fun next => ?_
  split
  · exact advances_onCursor (advances_fail _)
  · exact hcompound.map _
  · exact hlist.map _
  · exact ((advances_onCursor advances_readQuoted).map _).ite (advances_onCursor advances_readBare)

theorem advances_valueWithin (limit room : Nat) :
    Advances LiteralState.cursor (valueWithin limit room) := by
  induction room with
  | zero => exact advances_valueOf (advances_refuse limit) (advances_refuse limit)
  | succ room ih => exact advances_valueOf (advances_compoundOf ih) (advances_readContainer ih _ _)

theorem advances_compoundWithin (limit room : Nat) :
    Advances LiteralState.cursor (compoundWithin limit room) := by
  cases room with
  | zero => exact advances_refuse limit
  | succ room => exact advances_compoundOf (advances_valueWithin limit room)

theorem advances_readValue (limit : Nat) : Advances LiteralState.cursor (readValue limit) :=
  advances_get fun state => advances_valueWithin limit (limit - state.depth)

theorem advances_readCompound (limit : Nat) :
    Advances LiteralState.cursor (readCompound limit) :=
  advances_get fun state => advances_compoundWithin limit (limit - state.depth)

theorem stateAfter_fromOutside (read : LiteralReader α) (cursor : Cursor) :
    stateAfter (fromOutside read cursor) = (stateAfter (read ⟨cursor, 0⟩)).cursor := by
  unfold fromOutside
  cases read ⟨cursor, 0⟩ with
  | ok a state => rfl
  | error error state => rfl

theorem exists_of_fromOutside {read : LiteralReader α} {cursor stop : Cursor} {a : α}
    (h : fromOutside read cursor = .ok a stop) :
    ∃ state, read ⟨cursor, 0⟩ = .ok a state ∧ state.cursor = stop := by
  unfold fromOutside at h
  split at h
  · next b state hread =>
    obtain ⟨rfl, rfl⟩ := EStateM.Result.ok.inj h
    exact ⟨state, hread, rfl⟩
  · cases h

theorem advances_fromOutside {read : LiteralReader α} (h : Advances LiteralState.cursor read) :
    Advances id (fromOutside read) := by
  intro cursor
  rw [stateAfter_fromOutside]
  exact h ⟨cursor, 0⟩

end TreeQuery.Literal
