import TreeQuery.Proofs.Completion

/-!
# Where readers stop

A reader leaves a cursor behind when it succeeds and when it fails.  In both cases that is the
cursor it started at or one after some text from there (`Advances`).  So no reader moves a
cursor backwards, or into the middle of a character, or past the end of the text.

The relation is closed under `bind`, and there is one law here for each reader of a cursor.
Where nothing is left to read, a reader stays where it is (`Advances.stays`).
-/

namespace TreeQuery

open Cursor

/-- The state in which a reader stops, with a value or with an error. -/
def stateAfter {ε σ α : Type} : EStateM.Result ε σ α → σ
  | .ok _ s | .error _ s => s

/-- Some text stands between the place where the reader starts and the place where it stops. -/
def Advances {σ α : Type} (place : σ → Cursor) (read : EStateM SyntaxError σ α) : Prop :=
  ∀ s, ∃ text, (place s).Passes text (place (stateAfter (read s)))

section

variable {σ α β : Type} {place : σ → Cursor} {read other : EStateM SyntaxError σ α}

/-- A reader that leaves its place alone. -/
theorem advances_of_same (h : ∀ s, place (stateAfter (read s)) = place s) :
    Advances place read := by
  intro s
  rw [h s]
  exact ⟨[], Passes.refl _⟩

theorem advances_pure (a : α) : Advances place (pure a) := advances_of_same fun _ => rfl

theorem Advances.bind {next : α → EStateM SyntaxError σ β} (h : Advances place read)
    (hnext : ∀ a, Advances place (next a)) : Advances place (read >>= next) := by
  intro s
  obtain ⟨text, hpass⟩ := h s
  cases hread : read s with
  | ok a s₁ =>
      rw [hread] at hpass
      rw [bind_of_ok hread]
      obtain ⟨text', hpass'⟩ := hnext a s₁
      exact ⟨text ++ text', hpass.append hpass'⟩
  | error error s₁ =>
      rw [hread] at hpass
      rw [bind_of_error hread]
      exact ⟨text, hpass⟩

/-- A reader that only wraps the value. -/
theorem Advances.map (h : Advances place read) (f : α → β) :
    Advances place (read >>= fun a => pure (f a)) :=
  h.bind fun a => advances_pure (f a)

/-- A reader that looks at its state. -/
theorem advances_get {next : σ → EStateM SyntaxError σ α} (h : ∀ s, Advances place (next s)) :
    Advances place (get >>= next) :=
  fun s => h s s

theorem Advances.ite {condition : Prop} [Decidable condition] (h : Advances place read)
    (hother : Advances place other) : Advances place (if condition then read else other) := by
  split
  · exact h
  · exact hother

/-- At the end of the text a reader stays where it is. -/
theorem Advances.stays (h : Advances place read) {s : σ} (hend : (place s).rest = []) :
    place (stateAfter (read s)) = place s := by
  obtain ⟨text, hpass⟩ := h s
  have hnil : text ++ (place (stateAfter (read s))).rest = [] := hpass.1.symm.trans hend
  rw [(List.append_eq_nil_iff.mp hnil).1] at hpass
  exact (passes_nil.mp hpass).symm

end

namespace Reader

variable {α : Type}

/-! ## Single characters and runs -/

theorem advances_fail (fault : SyntaxFault) : Advances id (fail (α := α) fault) :=
  advances_of_same fun _ => rfl

theorem advances_peek : Advances id peek := advances_of_same fun _ => rfl

theorem advances_skip : Advances id skip := by
  rintro ⟨position, _ | ⟨c, rest⟩⟩
  · exact ⟨[], Passes.refl _⟩
  · exact ⟨[c], rfl, rfl⟩

theorem advances_expect (wanted : Char) : Advances id (expect wanted) :=
  advances_peek.bind fun _ => advances_skip.ite (advances_fail _)

theorem expect_error {wanted : Char} {c stop : Cursor} {error : SyntaxError}
    (h : expect wanted c = .error error stop) : stop = c := by
  have hexpect : expect wanted c
      = (if c.rest.head? = some wanted then skip else fail (.expected wanted c.rest.head?)) c := rfl
  rw [hexpect] at h
  split at h
  · obtain ⟨position, rest⟩ := c
    cases rest with
    | nil => cases h
    | cons d rest => cases h
  · cases h
    rfl

theorem advances_readWhile (accept : Char → Bool) : Advances id (readWhile accept) := by
  intro c
  obtain ⟨word, c₁, hword⟩ : ∃ word c₁, readWhile accept c = .ok word c₁ := ⟨_, _, rfl⟩
  rw [hword]
  exact ⟨word, (readWhile_eq_ok.mp hword).1⟩

theorem advances_skipBlanks : Advances id skipBlanks :=
  (advances_readWhile _).map fun _ => ()

/-! ## Text in quotes and numerals -/

theorem advances_readQuoted : Advances id readQuoted := by
  refine advances_peek.bind fun found => ?_
  cases found with
  | none => exact advances_fail _
  | some quote =>
      refine Advances.ite (advances_skip.bind fun _ c => ?_) (advances_fail _)
      generalize hunquote : unquote quote c.position c.rest = outcome
      obtain ⟨_ | content, after⟩ := outcome
      · exact ⟨c.rest, (unquote_completes hunquote).2⟩
      · obtain ⟨rest, -, hpass⟩ := unquote_sound hunquote
        exact ⟨rest, hpass⟩

theorem readInteger_error {c stop : Cursor} {error : SyntaxError}
    (h : readInteger c = .error error stop) : stop = c := by
  unfold readInteger at h
  dsimp only at h
  split at h
  · cases h
  · cases h
    rfl

theorem advances_readInteger : Advances id readInteger := by
  intro c
  cases hread : readInteger c with
  | ok n stop =>
      obtain ⟨text, -, hpass, -⟩ := readInteger_eq_ok.mp hread
      exact ⟨text, hpass⟩
  | error error stop =>
      obtain rfl := readInteger_error hread
      exact ⟨[], Passes.refl _⟩

end Reader

end TreeQuery
