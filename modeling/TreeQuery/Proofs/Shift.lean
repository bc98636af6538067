import TreeQuery.Proofs.Reading

/-!
# Reading further into a text

What a reader does depends on the text that is still to be read and not on how much
stands before it.  With more bytes before it, it gives the same value or fails for the
same cause.  Only positions change: those of the cursor it leaves and of its error
both count the further bytes.

`Tracks` says this of two readers, where the second one starts further into a text.
They are the same reader as a rule.  Where a reader keeps a position and computes with
it, the second one keeps a position that is further on.  The relation is closed under
`bind`, and there is one law here for each reader of a cursor.
-/

namespace TreeQuery

/-- The state of a reader, which is at a place of a text. -/
class Placed (σ : Type) where
  /-- The same state with more bytes before it. -/
  shift : Nat → σ → σ

instance : Placed Cursor where
  shift count cursor := ⟨cursor.position + count, cursor.rest⟩

/-- The same error with more bytes before it. -/
def SyntaxError.shift (count : Nat) (error : SyntaxError) : SyntaxError :=
  ⟨error.fault, error.position + count⟩

/-! ## Two readings of the same text -/

section

variable {σ α β : Type} [Placed σ] {count : Nat}

/-- The same outcome with more bytes before it. -/
def shiftOutcome (count : Nat) :
    EStateM.Result SyntaxError σ α → EStateM.Result SyntaxError σ α
  | .ok a s => .ok a (Placed.shift count s)
  | .error e s => .error (e.shift count) (Placed.shift count s)

/-- With more bytes before it, the second reader does what the first one does. -/
def Tracks (count : Nat) (read moved : EStateM SyntaxError σ α) : Prop :=
  ∀ s, moved (Placed.shift count s) = shiftOutcome count (read s)

theorem tracks_pure (a : α) : Tracks (σ := σ) count (pure a) (pure a) := fun _ => rfl

theorem Tracks.bind {read moved : EStateM SyntaxError σ α}
    {next next' : α → EStateM SyntaxError σ β} (h : Tracks count read moved)
    (hnext : ∀ a, Tracks count (next a) (next' a)) :
    Tracks count (read >>= next) (moved >>= next') := by
  intro s
  have hmoved := h s
  cases hread : read s with
  | ok a s₁ =>
      rw [hread] at hmoved
      rw [bind_of_ok hread, bind_of_ok hmoved]
      exact hnext a s₁
  | error e s₁ =>
      rw [hread] at hmoved
      rw [bind_of_error hread, bind_of_error hmoved]
      rfl

/-- A reader that looks at its place does so at two places. -/
theorem Tracks.of_get {next next' : σ → EStateM SyntaxError σ α}
    (h : ∀ s, Tracks count (next s) (next' (Placed.shift count s))) :
    Tracks count (get >>= next) (get >>= next') :=
  fun s => h s s

theorem Tracks.ite {condition : Prop} [Decidable condition]
    {read moved other other' : EStateM SyntaxError σ α}
    (h : Tracks count read moved) (hother : Tracks count other other') :
    Tracks count (if condition then read else other) (if condition then moved else other') := by
  split
  · exact h
  · exact hother

end

/-- Reading on and shifting add to the position in either order. -/
theorem shift_mk_add (count position width : Nat) (rest : List Char) :
    (⟨position + count + width, rest⟩ : Cursor) = Placed.shift count ⟨position + width, rest⟩ :=
  congrArg (Cursor.mk · rest) (Nat.add_right_comm position count width)

namespace Reader

variable {α : Type} {count : Nat}

/-! ## Single characters and runs -/

theorem tracks_fail (fault : SyntaxFault) : Tracks count (fail (α := α) fault) (fail fault) :=
  fun _ => rfl

theorem tracks_peek : Tracks count peek peek := fun _ => rfl

theorem tracks_skip : Tracks count skip skip := by
  rintro ⟨position, _ | ⟨c, rest⟩⟩
  · rfl
  · exact congrArg (EStateM.Result.ok ()) (shift_mk_add count position c.utf8Size rest)

theorem tracks_expect (wanted : Char) : Tracks count (expect wanted) (expect wanted) :=
  tracks_peek.bind fun _ => tracks_skip.ite (tracks_fail _)

theorem dropWhile_shift (accept : Char → Bool) (cursor : Cursor) :
    (Placed.shift count cursor).dropWhile accept = Placed.shift count (cursor.dropWhile accept) :=
  shift_mk_add count cursor.position _ _

theorem tracks_readWhile (accept : Char → Bool) :
    Tracks count (readWhile accept) (readWhile accept) :=
  fun cursor => congrArg (EStateM.Result.ok _) (dropWhile_shift accept cursor)

theorem tracks_skipBlanks : Tracks count skipBlanks skipBlanks :=
  (tracks_readWhile _).bind fun _ => tracks_pure ()

/-! ## Text in quotes and numerals -/

theorem unquote_shift (quote : Char) (position : Nat) (text : List Char) :
    unquote quote (position + count) text
      = ((unquote quote position text).1, Placed.shift count (unquote quote position text).2) := by
  fun_induction unquote quote position text with
  | case1 position => rfl
  | case2 position => rw [unquote, shift_mk_add]
  | case3 position c rest content cursor heq ih =>
      have hplace : position + count + 1 + c.utf8Size = position + 1 + c.utf8Size + count := by
        omega
      rw [heq] at ih
      rw [unquote, hplace, ih]
  | case4 position rest hend hescape =>
      rw [unquote, if_pos rfl, shift_mk_add]
      · exact hend
      · exact hescape
  | case5 position c rest hend hescape hquote content cursor heq ih =>
      rw [heq] at ih
      rw [unquote, if_neg hquote, Nat.add_right_comm, ih]
      · exact hend
      · exact hescape

theorem tracks_readQuoted : Tracks count readQuoted readQuoted := by
  refine tracks_peek.bind fun found => ?_
  cases found with
  | none => exact tracks_fail _
  | some quote =>
      refine Tracks.ite (tracks_skip.bind fun _ cursor => ?_) (tracks_fail _)
      have hmoved := @unquote_shift count quote cursor.position cursor.rest
      dsimp only [Placed.shift] at hmoved ⊢
      rw [hmoved]
      generalize unquote quote cursor.position cursor.rest = outcome
      obtain ⟨content | content, after⟩ := outcome
      · rfl
      · rfl

theorem tracks_readInteger : Tracks count readInteger readInteger := by
  intro cursor
  unfold readInteger
  dsimp only [Placed.shift]
  split
  · exact congrArg (EStateM.Result.ok _) (dropWhile_shift isNumeralChar cursor)
  · rfl

end Reader

end TreeQuery
