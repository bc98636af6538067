import TreeQuery.Literal.Reader
import TreeQuery.Proofs.Shift

/-!
# Reading literals further into a text

A reader of literals looks at its place only to see how much text is left, which
bounds its loops, and how many containers are open.  Neither depends on what stands
before the place.  So it does the same further into a text (`tracks_valueWithin`,
`tracks_readCompound`).
-/

namespace TreeQuery

instance : Placed LiteralState where
  shift count state := { state with cursor := Placed.shift count state.cursor }

namespace Literal

open Reader

variable {α : Type} {count : Nat}

theorem Tracks.onCursor {read moved : Reader α} (h : Tracks count read moved) :
    Tracks count (Literal.onCursor read) (Literal.onCursor moved) := by
  intro state
  have hmoved := h state.cursor
  simp only [Literal.onCursor, Placed.shift] at hmoved ⊢
  rw [hmoved]
  cases read state.cursor with
  | ok a cursor => rfl
  | error e cursor => rfl

/-! ## The parts of containers -/

theorem tracks_readKey : Tracks count readKey readKey := by
  refine tracks_skipBlanks.bind fun _ => tracks_peek.bind fun next => ?_
  refine tracks_readQuoted.ite ((tracks_readWhile _).bind fun word => ?_)
  exact (tracks_pure _).ite ((tracks_fail _).ite (tracks_fail _))

theorem tracks_readKeyMark : Tracks count readKeyMark readKeyMark :=
  tracks_skipBlanks.bind fun _ => tracks_peek.bind fun _ => tracks_skip.ite (tracks_fail _)

theorem tracks_readSeparator (close : Char) :
    Tracks count (readSeparator close) (readSeparator close) := by
  refine tracks_skipBlanks.bind fun _ => tracks_peek.bind fun found => ?_
  refine Tracks.ite ?_ ((tracks_pure _).ite (tracks_fail _))
  refine tracks_skip.bind fun _ => tracks_skipBlanks.bind fun _ => tracks_peek.bind fun after => ?_
  exact (tracks_fail _).ite (tracks_pure _)

theorem tracks_readBare : Tracks count readBare readBare :=
  (tracks_readWhile _).bind fun _ => (tracks_fail _).ite (tracks_pure _)

theorem tracks_readEntry {value : LiteralReader Value} (h : Tracks count value value) :
    Tracks count (readEntry value) (readEntry value) :=
  (Tracks.onCursor tracks_readKey).bind fun _ => (Tracks.onCursor tracks_readKeyMark).bind fun _ =>
    h.bind fun _ => tracks_pure _

theorem tracks_readParts {part : LiteralReader α} (h : Tracks count part part) (close : Char)
    (fuel : Nat) : Tracks count (readParts close part fuel) (readParts close part fuel) := by
  induction fuel with
  | zero => exact Tracks.onCursor (tracks_fail _)
  | succ fuel ih =>
      refine h.bind fun first => (Tracks.onCursor (tracks_readSeparator close)).bind fun more => ?_
      exact (ih.bind fun _ => tracks_pure _).ite (tracks_pure _)

theorem tracks_readPartsUntil {part : LiteralReader α} (h : Tracks count part part)
    (close : Char) : Tracks count (readPartsUntil close part) (readPartsUntil close part) := by
  refine (Tracks.onCursor tracks_peek).bind fun next => (tracks_pure _).ite ?_
  exact Tracks.of_get fun state => tracks_readParts h close (state.cursor.rest.length + 1)

/-! ## Containers and values -/

theorem tracks_depth (change : Nat → Nat) :
    Tracks (σ := LiteralState) count
      (modify fun state => { state with depth := change state.depth })
      (modify fun state => { state with depth := change state.depth }) :=
  fun _ => rfl

theorem tracks_readContainer {part : LiteralReader α} (h : Tracks count part part)
    (opening closing : Char) :
    Tracks count (readContainer opening closing part) (readContainer opening closing part) := by
  refine (tracks_depth (· + 1)).bind fun _ => ?_
  refine (Tracks.onCursor (tracks_expect opening)).bind fun _ => ?_
  refine (Tracks.onCursor tracks_skipBlanks).bind fun _ => ?_
  refine (tracks_readPartsUntil h closing).bind fun parts => ?_
  refine (Tracks.onCursor (tracks_expect closing)).bind fun _ => ?_
  exact (tracks_depth (· - 1)).bind fun _ => tracks_pure parts

theorem tracks_compoundOf {value : LiteralReader Value} (h : Tracks count value value) :
    Tracks count (compoundOf value) (compoundOf value) :=
  (tracks_readContainer (tracks_readEntry h) _ _).bind fun _ => tracks_pure _

theorem tracks_refuse (limit : Nat) :
    Tracks count (refuse (α := α) limit) (refuse limit) :=
  Tracks.onCursor (tracks_fail _)

theorem tracks_valueOf {compound : LiteralReader Compound} {list : LiteralReader (List Value)}
    (hcompound : Tracks count compound compound) (hlist : Tracks count list list) :
    Tracks count (valueOf compound list) (valueOf compound list) := by
  refine (Tracks.onCursor tracks_skipBlanks).bind fun _ =>
    (Tracks.onCursor tracks_peek).bind fun next => ?_
  split
  · exact Tracks.onCursor (tracks_fail _)
  · exact hcompound.bind fun _ => tracks_pure _
  · exact hlist.bind fun _ => tracks_pure _
  · exact ((Tracks.onCursor tracks_readQuoted).bind fun _ => tracks_pure _).ite
      (Tracks.onCursor tracks_readBare)

theorem tracks_valueWithin (limit room : Nat) :
    Tracks count (valueWithin limit room) (valueWithin limit room) := by
  induction room with
  | zero => exact tracks_valueOf (tracks_refuse limit) (tracks_refuse limit)
  | succ room ih => exact tracks_valueOf (tracks_compoundOf ih) (tracks_readContainer ih _ _)

theorem tracks_compoundWithin (limit room : Nat) :
    Tracks count (compoundWithin limit room) (compoundWithin limit room) := by
  cases room with
  | zero => exact tracks_refuse limit
  | succ room => exact tracks_compoundOf (tracks_valueWithin limit room)

theorem tracks_readCompound (limit : Nat) :
    Tracks count (readCompound limit) (readCompound limit) :=
  Tracks.of_get fun state => tracks_compoundWithin limit (limit - state.depth)

theorem Tracks.fromOutside {read moved : LiteralReader α} (h : Tracks count read moved) :
    Tracks count (Literal.fromOutside read) (Literal.fromOutside moved) := by
  intro cursor
  have hmoved := h ⟨cursor, 0⟩
  simp only [Literal.fromOutside, Placed.shift] at hmoved ⊢
  rw [hmoved]
  cases read ⟨cursor, 0⟩ with
  | ok a state => rfl
  | error e state => rfl

end Literal

end TreeQuery
