import Mathlib.Data.Nat.Find
import TreeQuery.Proofs.Literal.Faults

/-!
# Reading under a higher limit

A limit on open containers does nothing but refuse.  Under a limit, a reader is refused a
container, or it does what it does under any higher limit: it gives the same value or has
the same fault, at the same place.  `Follows` says this of two readers.  A refusal counts
as less than any other outcome, and every reader goes up with the limits of the readers
that it is made of.

A limit that is not less than the length of the text refuses nothing.  So there is a least
one under which nothing is refused (`exists_threshold`).
-/

namespace TreeQuery

/-! ## A least limit -/

/-- Below the bound, the outcome is a refusal under the limit.  From the bound on, the
outcome is always the same, and it is no refusal. -/
structure Threshold {β : Type} (refused : Nat → β → Prop) (run : Nat → β) (bound : Nat) : Prop where
  below : ∀ limit < bound, refused limit (run limit)
  above : ∀ limit ≥ bound, run limit = run bound
  settled : ∀ limit, ¬refused limit (run bound)

/-- A run that is refused or does the same as under higher limits has a threshold, if it is
not always refused. -/
theorem exists_threshold {β : Type} {refused : Nat → β → Prop} {run : Nat → β}
    (hfollows : ∀ {low high}, low ≤ high → refused low (run low) ∨ run low = run high)
    (hown : ∀ {limit most}, refused most (run limit) → most = limit)
    (hsome : ∃ limit, ¬refused limit (run limit)) : ∃ bound, Threshold refused run bound := by
  classical
  refine ⟨Nat.find hsome, fun limit hlt => ?_, fun limit hle => ?_, fun limit hrefused => ?_⟩
  · exact Decidable.of_not_not (Nat.find_min hsome hlt)
  · exact ((hfollows hle).resolve_left (Nat.find_spec hsome)).symm
  · rw [hown hrefused] at hrefused
    exact Nat.find_spec hsome hrefused

/-! ## Two readers under two limits -/

section

variable {σ α β : Type} {limit : Nat}

/-- The limit is the fault of the outcome. -/
def Refused (limit : Nat) (outcome : EStateM.Result SyntaxError σ α) : Prop :=
  ∃ position stop, outcome = .error ⟨.tooDeep limit, position⟩ stop

/-- The first reader is refused a container, or does what the second one does. -/
def Follows (limit : Nat) (read other : EStateM SyntaxError σ α) : Prop :=
  ∀ s, Refused limit (read s) ∨ read s = other s

theorem Follows.refl (read : EStateM SyntaxError σ α) : Follows limit read read :=
  fun _ => .inr rfl

theorem Follows.bind {read other : EStateM SyntaxError σ α}
    {next next' : α → EStateM SyntaxError σ β} (h : Follows limit read other)
    (hnext : ∀ a, Follows limit (next a) (next' a)) :
    Follows limit (read >>= next) (other >>= next') := by
  intro s
  rcases h s with ⟨position, stop, hread⟩ | heq
  · exact .inl ⟨position, stop, bind_of_error hread⟩
  · cases hother : other s with
    | ok a s₁ =>
        rw [bind_of_ok (heq.trans hother), bind_of_ok hother]
        exact hnext a s₁
    | error e s₁ =>
        rw [bind_of_error (heq.trans hother), bind_of_error hother]
        exact .inr rfl

/-- After a reader that knows no limit. -/
theorem Follows.after (read : EStateM SyntaxError σ α) {next next' : α → EStateM SyntaxError σ β}
    (h : ∀ a, Follows limit (next a) (next' a)) :
    Follows limit (read >>= next) (read >>= next') :=
  (Follows.refl read).bind h

/-- Before a reader that knows no limit. -/
theorem Follows.before {read other : EStateM SyntaxError σ α} (h : Follows limit read other)
    (next : α → EStateM SyntaxError σ β) : Follows limit (read >>= next) (other >>= next) :=
  h.bind fun _ => Follows.refl _

theorem Follows.ite {condition : Prop} [Decidable condition]
    {read other read' other' : EStateM SyntaxError σ α} (h : Follows limit read other)
    (h' : Follows limit read' other') :
    Follows limit (if condition then read else read') (if condition then other else other') := by
  split
  · exact h
  · exact h'

end

namespace Literal

open Reader

section

variable {α : Type} {limit : Nat} {value other : LiteralReader Value}

/-! ## Containers -/

theorem follows_readEntry (h : Follows limit value other) :
    Follows limit (readEntry value) (readEntry other) :=
  .after _ fun _ => .after _ fun _ => h.before _

variable {part part' : LiteralReader α}

theorem follows_readParts (h : Follows limit part part') (close : Char) (fuel : Nat) :
    Follows limit (readParts close part fuel) (readParts close part' fuel) := by
  induction fuel with
  | zero => exact .refl _
  | succ fuel ih => exact h.bind fun _ => .after _ fun _ => (ih.before _).ite (.refl _)

theorem follows_readPartsUntil (h : Follows limit part part') (close : Char) :
    Follows limit (readPartsUntil close part) (readPartsUntil close part') :=
  .after _ fun _ => .ite (.refl _) (.after _ fun _ => follows_readParts h close _)

theorem follows_readContainer (h : Follows limit part part') (opening closing : Char) :
    Follows limit (readContainer opening closing part) (readContainer opening closing part') :=
  .after _ fun _ => .after _ fun _ => .after _ fun _ =>
    (follows_readPartsUntil h closing).before _

theorem follows_compoundOf (h : Follows limit value other) :
    Follows limit (compoundOf value) (compoundOf other) :=
  (follows_readContainer (follows_readEntry h) _ _).before _

/-! ## Values -/

/-- A refusal is followed by anything. -/
theorem follows_of_refuse (read : LiteralReader α) : Follows limit (refuse limit) read :=
  fun s => .inl ⟨s.cursor.position, s, rfl⟩

theorem follows_valueOf {compound compound' : LiteralReader Compound}
    {list list' : LiteralReader (List Value)} (hcompound : Follows limit compound compound')
    (hlist : Follows limit list list') :
    Follows limit (valueOf compound list) (valueOf compound' list') := by
  refine .after _ fun _ => .after _ fun next => ?_
  split
  · exact .refl _
  · exact hcompound.before _
  · exact hlist.before _
  · exact .refl _

/-- With more room for containers, and under any limit. -/
theorem follows_valueWithin {limit' room room' : Nat} (hroom : room ≤ room') :
    Follows limit (valueWithin limit room) (valueWithin limit' room') := by
  induction room generalizing room' with
  | zero =>
      cases room' with
      | zero => exact follows_valueOf (follows_of_refuse _) (follows_of_refuse _)
      | succ room' => exact follows_valueOf (follows_of_refuse _) (follows_of_refuse _)
  | succ room ih =>
      obtain ⟨room', rfl⟩ := Nat.exists_eq_succ_of_ne_zero (Nat.ne_zero_of_lt hroom)
      have hvalue := ih (Nat.le_of_succ_le_succ hroom)
      exact follows_valueOf (follows_compoundOf hvalue) (follows_readContainer hvalue _ _)

theorem follows_compoundWithin {limit' room room' : Nat} (hroom : room ≤ room') :
    Follows limit (compoundWithin limit room) (compoundWithin limit' room') := by
  cases room with
  | zero => exact follows_of_refuse _
  | succ room =>
      obtain ⟨room', rfl⟩ := Nat.exists_eq_succ_of_ne_zero (Nat.ne_zero_of_lt hroom)
      exact follows_compoundOf (follows_valueWithin (Nat.le_of_succ_le_succ hroom))

theorem follows_fromOutside {read other : LiteralReader α} (h : Follows limit read other) :
    Follows limit (fromOutside read) (fromOutside other) := by
  intro c
  rw [fromOutside, fromOutside]
  rcases h ⟨c, 0⟩ with ⟨position, stop, hread⟩ | heq
  · exact .inl ⟨position, stop.cursor, by rw [hread]⟩
  · exact .inr (by rw [heq])

end

variable {low high : Nat}

theorem follows_readValue (hle : low ≤ high) : Follows low (readValue low) (readValue high) :=
  .after _ fun state => follows_valueWithin (Nat.sub_le_sub_right hle state.depth)

theorem follows_readCompound (hle : low ≤ high) :
    Follows low (readCompound low) (readCompound high) :=
  .after _ fun state => follows_compoundWithin (Nat.sub_le_sub_right hle state.depth)

theorem follows_read (hle : low ≤ high) : Follows low (read low) (read high) :=
  follows_fromOutside (follows_readValue hle)

/-- A literal that is refused a container is refused it because of the limit it is read
under, and that limit is less than the length of what is read. -/
theorem refused_read {limit most : Nat} {c : Cursor} (h : Refused most (read limit c)) :
    most = limit ∧ limit < c.rest.length := by
  obtain ⟨position, stop, hread⟩ := h
  have htrue := truthful_read limit c
  rw [hread] at htrue
  obtain ⟨before, after, hpass, htrue⟩ := htrue
  refine ⟨htrue.1, ?_⟩
  rw [hpass.1]
  exact htrue.limit_lt

/-- A literal that is read at a cursor has a threshold. -/
theorem exists_threshold_read (c : Cursor) :
    ∃ bound, Threshold Refused (fun limit => read limit c) bound :=
  exists_threshold (fun hle => follows_read hle c) (fun h => (refused_read h).1)
    ⟨c.rest.length, fun h => Nat.lt_irrefl _ (refused_read h).2⟩

end Literal

end TreeQuery
