import TreeQuery.Cursor

/-!
# What readers take

A reader that succeeds has taken some text from its cursor.  `Cursor.Passes` says
which text stands between two cursors of one reading.  Every reader of a cursor
gets one law here, an equivalence: it succeeds with a value and a cursor exactly
when the text passed is of a given form.  One half is used to find the form of
what was read, the other to read a text of that form.

A reader of a run of characters takes the longest one.  So its law also says that
the text goes on with no such character (`Stops`).
-/

namespace TreeQuery

open Text

/-! ## Readers one after the other -/

/-- Two readers in a row succeed exactly when the first one does and the second
one does where the first one stopped. -/
theorem bind_eq_ok {ε σ α β : Type} {x : EStateM ε σ α} {f : α → EStateM ε σ β}
    {s s' : σ} {b : β} :
    (x >>= f) s = .ok b s' ↔ ∃ a s₁, x s = .ok a s₁ ∧ f a s₁ = .ok b s' := by
  show EStateM.bind x f s = .ok b s' ↔ _
  unfold EStateM.bind
  constructor
  · intro h
    cases hx : x s with
    | ok a s₁ =>
        rw [hx] at h
        exact ⟨a, s₁, rfl, h⟩
    | error e s₁ =>
        rw [hx] at h
        cases h
  · rintro ⟨a, s₁, hx, hf⟩
    rw [hx]
    exact hf

/-- After a reader that succeeds, the second one goes on. -/
theorem bind_of_ok {ε σ α β : Type} {x : EStateM ε σ α} {f : α → EStateM ε σ β} {s s₁ : σ} {a : α}
    (h : x s = .ok a s₁) : (x >>= f) s = f a s₁ := by
  show EStateM.bind x f s = f a s₁
  unfold EStateM.bind
  rw [h]

/-- After a reader that fails, nothing else is read. -/
theorem bind_of_error {ε σ α β : Type} {x : EStateM ε σ α} {f : α → EStateM ε σ β} {s s₁ : σ}
    {e : ε} (h : x s = .error e s₁) : (x >>= f) s = .error e s₁ := by
  show EStateM.bind x f s = .error e s₁
  unfold EStateM.bind
  rw [h]

/-- Two readers in a row fail where the first one fails or the second one does. -/
theorem bind_eq_error {ε σ α β : Type} {x : EStateM ε σ α} {f : α → EStateM ε σ β}
    {s s' : σ} {e : ε} :
    (x >>= f) s = .error e s'
      ↔ x s = .error e s' ∨ ∃ a s₁, x s = .ok a s₁ ∧ f a s₁ = .error e s' := by
  cases hx : x s with
  | ok a s₁ => simp [bind_of_ok hx, and_assoc]
  | error e₁ s₁ => simp [bind_of_error hx]

theorem pure_eq_ok {ε σ α : Type} {a b : α} {s s' : σ} :
    (pure a : EStateM ε σ α) s = .ok b s' ↔ a = b ∧ s = s' := by
  show EStateM.Result.ok a s = .ok b s' ↔ _
  simp

/-- A computation that only wraps the value has made it. -/
theorem map_eq_ok {ε σ α β : Type} {x : EStateM ε σ α} {f : α → β} {s s' : σ} {b : β} :
    (x >>= fun a => pure (f a)) s = .ok b s' ↔ ∃ a, x s = .ok a s' ∧ f a = b := by
  rw [bind_eq_ok]
  constructor
  · rintro ⟨a, s₁, hx, h⟩
    obtain ⟨rfl, rfl⟩ := pure_eq_ok.mp h
    exact ⟨a, hx, rfl⟩
  · rintro ⟨a, hx, rfl⟩
    exact ⟨a, s', hx, rfl⟩

theorem get_eq_ok {ε σ : Type} {s s' a : σ} :
    (get : EStateM ε σ σ) s = .ok a s' ↔ a = s ∧ s' = s := by
  show EStateM.Result.ok s s = .ok a s' ↔ _
  simp [eq_comm]

/-! ## The text between two cursors -/

namespace Cursor

/-- The text stands between the cursors. -/
def Passes (before : Cursor) (text : List Char) (after : Cursor) : Prop :=
  before.rest = text ++ after.rest ∧ after.position = before.position + byteLength text

theorem Passes.refl (cursor : Cursor) : cursor.Passes [] cursor := ⟨rfl, rfl⟩

theorem passes_nil {before after : Cursor} : before.Passes [] after ↔ before = after := by
  constructor
  · intro h
    obtain ⟨position, rest⟩ := before
    obtain ⟨position', rest'⟩ := after
    simp only [Passes, List.nil_append, byteLength_nil, Nat.add_zero] at h
    rw [h.1, h.2]
  · intro h
    subst h
    exact Passes.refl before

/-- The text between two cursors is made of the text up to a cursor between them
and the text from there. -/
theorem passes_append {before after : Cursor} {first second : List Char} :
    before.Passes (first ++ second) after
      ↔ ∃ middle, before.Passes first middle ∧ middle.Passes second after := by
  constructor
  · rintro ⟨hrest, hpos⟩
    refine ⟨⟨before.position + byteLength first, second ++ after.rest⟩, ⟨?_, rfl⟩, rfl, ?_⟩
    · rw [hrest, List.append_assoc]
    · rw [hpos, byteLength_append, Nat.add_assoc]
  · rintro ⟨middle, ⟨hrest₁, hpos₁⟩, hrest₂, hpos₂⟩
    refine ⟨?_, ?_⟩
    · rw [hrest₁, hrest₂, List.append_assoc]
    · rw [hpos₂, hpos₁, byteLength_append, Nat.add_assoc]

theorem Passes.append {before middle after : Cursor} {first second : List Char}
    (h₁ : before.Passes first middle) (h₂ : middle.Passes second after) :
    before.Passes (first ++ second) after :=
  passes_append.mpr ⟨middle, h₁, h₂⟩

/-- The same, for a text of one character and more. -/
theorem passes_cons {before after : Cursor} {c : Char} {text : List Char} :
    before.Passes (c :: text) after
      ↔ ∃ middle, before.Passes [c] middle ∧ middle.Passes text after := by
  rw [← List.singleton_append, passes_append]

/-- The text and the cursor after it are determined by where it starts and how many
characters remain. -/
theorem Passes.textTo {before after : Cursor} {text : List Char}
    (h : before.Passes text after) : before.textTo after = text := by
  rw [Cursor.textTo, h.1, List.length_append, Nat.add_sub_cancel, List.take_left]

end Cursor

/-- The text is at its end or goes on with a character that does not satisfy the
condition. -/
def Stops (condition : Char → Bool) (rest : List Char) : Prop :=
  ∀ c ∈ rest.head?, condition c = false

@[simp] theorem stops_nil (condition : Char → Bool) : Stops condition [] := by
  intro c hc
  cases hc

@[simp] theorem stops_cons {condition : Char → Bool} {c : Char} {rest : List Char} :
    Stops condition (c :: rest) ↔ condition c = false := by
  simp [Stops]

/-- Only one beginning of a text is a longest run. -/
theorem takeWhile_append_of_stops {condition : Char → Bool} {text rest : List Char}
    (htext : ∀ c ∈ text, condition c = true) (hrest : Stops condition rest) :
    (text ++ rest).takeWhile condition = text ∧ (text ++ rest).dropWhile condition = rest := by
  rw [List.takeWhile_append_of_pos htext, List.dropWhile_append_of_pos htext]
  cases rest with
  | nil => simp
  | cons c rest =>
      rw [stops_cons] at hrest
      simp [hrest]

theorem stops_dropWhile (condition : Char → Bool) (text : List Char) :
    Stops condition (text.dropWhile condition) := by
  induction text with
  | nil => simp
  | cons c text ih =>
      cases hc : condition c with
      | true => simpa [hc] using ih
      | false => simp [hc]

namespace Reader

open Cursor

/-! ## Single characters and runs -/

theorem peek_eq_ok {before after : Cursor} {found : Option Char} :
    peek before = .ok found after ↔ found = before.rest.head? ∧ after = before := by
  simp [peek, eq_comm]

theorem fail_ne_ok {α : Type} {fault : SyntaxFault} {before after : Cursor} {a : α} :
    fail fault before ≠ .ok a after := by
  intro h
  cases h

/-- Where a character stands, reading it passes it. -/
theorem skip_eq_ok {before after : Cursor} {u : Unit} {c : Char}
    (h : before.rest.head? = some c) :
    skip before = .ok u after ↔ before.Passes [c] after := by
  obtain ⟨position, rest⟩ := before
  obtain ⟨position', rest'⟩ := after
  cases rest with
  | nil => cases h
  | cons d rest =>
      simp only [List.head?_cons, Option.some.injEq] at h
      subst h
      simp [skip, Passes, eq_comm, and_comm]

/-- A character that stands next is read. -/
theorem skip_of_head {before : Cursor} {c : Char} (h : before.rest.head? = some c) :
    ∃ after, skip before = .ok () after ∧ before.Passes [c] after := by
  obtain ⟨rest, hrest⟩ := List.head?_eq_some_iff.mp h
  have hpass : before.Passes [c] ⟨before.position + c.utf8Size, rest⟩ := ⟨hrest, rfl⟩
  exact ⟨_, (skip_eq_ok h).mpr hpass, hpass⟩

theorem expect_eq_ok {wanted : Char} {before after : Cursor} {u : Unit} :
    expect wanted before = .ok u after ↔ before.Passes [wanted] after := by
  rw [expect, bind_eq_ok]
  constructor
  · rintro ⟨found, middle, hpeek, h⟩
    obtain ⟨rfl, rfl⟩ := peek_eq_ok.mp hpeek
    split at h
    · next hfound => exact (skip_eq_ok hfound).mp h
    · exact absurd h fail_ne_ok
  · intro h
    have hfound : before.rest.head? = some wanted := by rw [h.1]; rfl
    refine ⟨_, _, peek_eq_ok.mpr ⟨rfl, rfl⟩, ?_⟩
    rw [if_pos hfound]
    exact (skip_eq_ok hfound).mpr h

theorem readWhile_eq_ok {accept : Char → Bool} {before after : Cursor} {text : List Char} :
    readWhile accept before = .ok text after
      ↔ before.Passes text after ∧ (∀ c ∈ text, accept c = true) ∧ Stops accept after.rest := by
  obtain ⟨position, rest⟩ := before
  obtain ⟨position', rest'⟩ := after
  simp only [readWhile, Cursor.dropWhile, Passes, EStateM.Result.ok.injEq, Cursor.mk.injEq]
  constructor
  · rintro ⟨rfl, rfl, rfl⟩
    refine ⟨⟨(List.takeWhile_append_dropWhile ..).symm, rfl⟩, ?_, stops_dropWhile accept rest⟩
    exact List.all_eq_true.mp List.all_takeWhile
  · rintro ⟨⟨rfl, rfl⟩, hall, hstops⟩
    obtain ⟨htake, hdrop⟩ := takeWhile_append_of_stops hall hstops
    exact ⟨htake, by rw [htake], hdrop⟩

/-- Blanks, of which there may be none. -/
def Gap (text : List Char) : Prop := ∀ c ∈ text, isBlank c = true

theorem Gap.nil : Gap [] := by
  intro c hc
  cases hc

theorem Gap.append {first second : List Char} (h₁ : Gap first) (h₂ : Gap second) :
    Gap (first ++ second) := by
  intro c hc
  rcases List.mem_append.mp hc with hc | hc
  · exact h₁ c hc
  · exact h₂ c hc

theorem skipBlanks_eq_ok {before after : Cursor} {u : Unit} :
    skipBlanks before = .ok u after
      ↔ ∃ gap, Gap gap ∧ before.Passes gap after ∧ Stops isBlank after.rest := by
  have hrun : skipBlanks before = .ok u after
      ↔ readWhile isBlank before = .ok (before.rest.takeWhile isBlank) after := by
    show EStateM.Result.ok _ _ = _ ↔ EStateM.Result.ok _ _ = _
    simp
  rw [hrun, readWhile_eq_ok]
  constructor
  · rintro ⟨hpass, hall, hstops⟩
    exact ⟨_, hall, hpass, hstops⟩
  · rintro ⟨gap, hall, hpass, hstops⟩
    rw [hpass.1, (takeWhile_append_of_stops hall hstops).1]
    exact ⟨hpass, hall, hstops⟩

/-- To skip blanks does not fail. -/
theorem skipBlanks_passes (before : Cursor) :
    ∃ gap after, skipBlanks before = .ok () after ∧ Gap gap ∧ before.Passes gap after := by
  obtain ⟨after, hblanks⟩ : ∃ after, skipBlanks before = .ok () after := ⟨_, rfl⟩
  obtain ⟨gap, hgap, hpass, -⟩ := skipBlanks_eq_ok.mp hblanks
  exact ⟨gap, after, hblanks, hgap, hpass⟩

end Reader

end TreeQuery
