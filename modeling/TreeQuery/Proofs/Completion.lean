import TreeQuery.Proofs.Token

/-!
# What was read before an error

A reader goes from left to right and fails at the first place where the text cannot be
one that it takes.  So what stands before the error is the beginning of a text that can
be taken.  `Begins` says that a text has a completion in a production, and `FailsAfter`
that an outcome is no failure, or one with a text of a given form before the error.

There is one law here for each reader of a cursor that can fail.  An error in quotes is
at the end of the text, so the closing quote completes it.  After a backslash one more
character is needed first.
-/

namespace TreeQuery

open Reader Cursor

/-- The text can be completed to one of the production. -/
def Begins {α : Type} (production : List Char → α → Prop) (text : List Char) : Prop :=
  ∃ more a, production (text ++ more) a

theorem Begins.imp {α β : Type} {production : List Char → α → Prop}
    {production' : List Char → β → Prop} {text before : List Char} (h : Begins production text)
    (himp : ∀ {more a}, production (text ++ more) a → Begins production' before) :
    Begins production' before := by
  obtain ⟨more, a, htext⟩ := h
  exact himp htext

/-- An error at once, or after the beginning of a text of the production. -/
def NilOrBegins {α : Type} (production : List Char → α → Prop) (text : List Char) : Prop :=
  text = [] ∨ Begins production text

/-- Where the reading that started at a cursor has failed, the text up to the error has a
form. -/
def FailsAfter {σ α : Type} (start : Cursor) (form : List Char → Prop) :
    EStateM.Result SyntaxError σ α → Prop
  | .ok _ _ => True
  | .error error _ => ∃ text rest, form text ∧ start.Passes text ⟨error.position, rest⟩

/-- The text up to a byte can be completed to one that is accepted. -/
def CompletesAt (accepted : String → Prop) (text : String) (position : Nat) : Prop :=
  ∃ before after more : String, text = before ++ after
    ∧ Text.byteLength before.toList = position ∧ accepted (before ++ more)

/-- The text up to a cursor that the reading of a whole text has come to, and the rest. -/
theorem append_of_passes {text : String} {before : List Char} {stop : Cursor}
    (h : (Cursor.atStart text.toList).Passes before stop) :
    text = String.ofList before ++ String.ofList stop.rest
      ∧ Text.byteLength (String.ofList before).toList = stop.position := by
  constructor
  · rw [← String.ofList_append]
    exact String.ofList_toList.symm.trans (congrArg String.ofList h.1)
  · rw [String.toList_ofList]
    exact (h.2.trans (Nat.zero_add _)).symm

/-- Where a whole text was not read, the text up to the error can be completed. -/
theorem completesAt_of_fails {σ α β : Type} {production : List Char → β → Prop}
    {accepted : String → Prop} {text : String} {error : SyntaxError} {stop : σ}
    (h : FailsAfter (.atStart text.toList) (Begins production)
      (.error error stop : EStateM.Result SyntaxError σ α))
    (himp : ∀ chars b, production chars b → accepted (String.ofList chars)) :
    CompletesAt accepted text error.position := by
  obtain ⟨before, after, ⟨more, b, hb⟩, hpass⟩ := h
  obtain ⟨htext, hposition⟩ := append_of_passes hpass
  refine ⟨String.ofList before, String.ofList after, String.ofList more, htext, hposition, ?_⟩
  rw [← String.ofList_append]
  exact himp _ b hb

/-! ## Readers one after the other -/

section

variable {σ α β : Type} {start middle : Cursor} {form form' : List Char → Prop}
  {read : EStateM SyntaxError σ α} {next : α → EStateM SyntaxError σ β} {s s₁ : σ} {a : α}

theorem FailsAfter.imp {outcome : EStateM.Result SyntaxError σ α}
    (h : FailsAfter start form outcome) (himp : ∀ text, form text → form' text) :
    FailsAfter start form' outcome := by
  cases outcome with
  | ok a s => trivial
  | error error s =>
      obtain ⟨text, rest, htext, hpass⟩ := h
      exact ⟨text, rest, himp text htext, hpass⟩

/-- What stands before an error is where the reading started. -/
theorem FailsAfter.within {outcome : EStateM.Result SyntaxError σ α}
    (h : FailsAfter start form outcome) :
    FailsAfter start (fun text => form text ∧ text <+: start.rest) outcome := by
  cases outcome with
  | ok a s => trivial
  | error error s =>
      obtain ⟨text, rest, htext, hpass⟩ := h
      exact ⟨text, rest, ⟨htext, ⟨rest, hpass.1.symm⟩⟩, hpass⟩

/-- An error with nothing before it. -/
theorem FailsAfter.of_nil {outcome : EStateM.Result SyntaxError σ α}
    (h : FailsAfter start (· = []) outcome) (hform : form []) : FailsAfter start form outcome :=
  h.imp fun _ hnil => hnil ▸ hform

/-- Where texts of one production are texts of another that has some, an error at once does
no harm. -/
theorem FailsAfter.ofNilOrBegins {γ δ : Type} {production : List Char → γ → Prop}
    {production' : List Char → δ → Prop} {outcome : EStateM.Result SyntaxError σ α}
    (h : FailsAfter start (NilOrBegins production) outcome) (hsome : Begins production' [])
    (himp : ∀ {text c}, production text c → ∃ d, production' text d) :
    FailsAfter start (Begins production') outcome := by
  refine h.imp fun text htext => ?_
  rcases htext with rfl | ⟨more, c, htext⟩
  · exact hsome
  · exact ⟨more, himp htext⟩

/-- An error that comes after some text has been read. -/
theorem FailsAfter.passed {outcome : EStateM.Result SyntaxError σ α} {before : List Char}
    (h : FailsAfter middle (fun text => form (before ++ text)) outcome)
    (hpass : start.Passes before middle) : FailsAfter start form outcome := by
  cases outcome with
  | ok a s => trivial
  | error error s =>
      obtain ⟨text, rest, htext, hrest⟩ := h
      exact ⟨before ++ text, rest, htext, hpass.append hrest⟩

theorem FailsAfter.bind (h : FailsAfter start form (read s))
    (hnext : ∀ a s₁, read s = .ok a s₁ → FailsAfter start form (next a s₁)) :
    FailsAfter start form ((read >>= next) s) := by
  cases hread : read s with
  | ok a s₁ =>
      rw [bind_of_ok hread]
      exact hnext a s₁ hread
  | error error s₁ =>
      rw [bind_of_error hread]
      rw [hread] at h
      exact h

/-- Only the second reader can fail. -/
theorem failsAfter_of_ok (hread : read s = .ok a s₁) (h : FailsAfter start form (next a s₁)) :
    FailsAfter start form ((read >>= next) s) := by
  rwa [bind_of_ok hread]

/-- Only the first reader can fail. -/
theorem FailsAfter.map (h : FailsAfter start form (read s)) (f : α → β) :
    FailsAfter start form ((read >>= fun a => pure (f a)) s) :=
  h.bind fun _ _ _ => trivial

end

namespace Reader

variable {α : Type} {c : Cursor} {form form' : List Char → Prop}

/-! ## Single characters and integers -/

/-- To look at the next character does not fail. -/
theorem fails_afterPeek {next : Option Char → Reader α}
    (h : FailsAfter c form (next c.rest.head? c)) : FailsAfter c form ((peek >>= next) c) :=
  failsAfter_of_ok (peek_eq_ok.mpr ⟨rfl, rfl⟩) h

theorem fails_fail (fault : SyntaxFault) : FailsAfter c (· = []) (fail (α := α) fault c) :=
  ⟨[], c.rest, rfl, Passes.refl c⟩

theorem fails_skip : FailsAfter c form (skip c) := by
  rw [skip]
  cases c.rest with
  | nil => trivial
  | cons d rest => trivial

theorem fails_expect (wanted : Char) : FailsAfter c (· = []) (expect wanted c) := by
  refine fails_afterPeek ?_
  split
  · exact fails_skip
  · exact fails_fail _

theorem fails_readInteger : FailsAfter c (· = []) (readInteger c) := by
  unfold readInteger
  dsimp only
  split
  · trivial
  · exact ⟨[], c.rest, rfl, Passes.refl c⟩

/-- A character that stands next is read without an error. -/
theorem fails_afterSkip {next : Unit → Reader α} {d : Char} (hhead : c.rest.head? = some d)
    (h : ∀ c₁, c.Passes [d] c₁ → FailsAfter c form (next () c₁)) :
    FailsAfter c form ((skip >>= next) c) := by
  obtain ⟨c₁, hskip, hpass⟩ := skip_of_head hhead
  exact failsAfter_of_ok hskip (h c₁ hpass)

/-- A run of characters is read without an error. -/
theorem fails_afterRun {accept : Char → Bool} {next : List Char → Reader α}
    (h : ∀ word c₁, c.Passes word c₁ → FailsAfter c form (next word c₁)) :
    FailsAfter c form ((readWhile accept >>= next) c) := by
  obtain ⟨word, c₁, hword⟩ : ∃ word c₁, readWhile accept c = .ok word c₁ := ⟨_, _, rfl⟩
  exact failsAfter_of_ok hword (h word c₁ (readWhile_eq_ok.mp hword).1)

/-- After blanks, a reader fails as it does without them. -/
theorem fails_afterBlanks {next : Unit → Reader α} (h : ∀ c₁, FailsAfter c₁ form (next () c₁))
    (himp : ∀ gap text, Gap gap → form text → form' (gap ++ text)) :
    FailsAfter c form' ((skipBlanks >>= next) c) := by
  obtain ⟨gap, c₁, hblanks, hgap, hpass⟩ := skipBlanks_passes c
  exact failsAfter_of_ok hblanks (((h c₁).imp fun text => himp gap text hgap).passed hpass)

/-! ## Text in quotes -/

/-- Quotes that are not closed can be closed at the end of the text. -/
theorem unquote_completes {quote : Char} {position : Nat} {chars : List Char} {after : Cursor}
    (h : unquote quote position chars = (none, after)) :
    Begins (QuotedRest quote) chars ∧ Passes ⟨position, chars⟩ chars after := by
  fun_induction unquote quote position chars generalizing after with
  | case1 position =>
      obtain rfl := (Prod.mk.inj h).2
      exact ⟨⟨[quote], [], .close⟩, Passes.refl _⟩
  | case2 position =>
      obtain rfl := (Prod.mk.inj h).2
      exact ⟨⟨[quote, quote], [quote], .escaped .close⟩, rfl, rfl⟩
  | case3 position c chars text cursor heq ih =>
      obtain ⟨htext, rfl⟩ := Prod.mk.inj h
      rw [Option.map_eq_none_iff.mp htext] at heq
      obtain ⟨⟨more, content, hmore⟩, hpass⟩ := ih heq
      have hskip : Passes ⟨position, '\\' :: c :: chars⟩ ['\\', c]
          ⟨position + 1 + c.utf8Size, chars⟩ := ⟨rfl, by simp [Nat.add_assoc]; rfl⟩
      exact ⟨⟨more, c :: content, .escaped hmore⟩, hskip.append hpass⟩
  | case4 position chars => cases (Prod.mk.inj h).1
  | case5 position c chars hend hescape hquote text cursor heq ih =>
      obtain ⟨htext, rfl⟩ := Prod.mk.inj h
      rw [Option.map_eq_none_iff.mp htext] at heq
      obtain ⟨⟨more, content, hmore⟩, hpass⟩ := ih heq
      have hplain : c ≠ '\\' := by
        rintro rfl
        cases chars with
        | nil => exact hend rfl rfl
        | cons d chars => exact hescape d chars rfl rfl
      have hskip : Passes ⟨position, c :: chars⟩ [c] ⟨position + c.utf8Size, chars⟩ := ⟨rfl, rfl⟩
      exact ⟨⟨more, c :: content, .plain hplain hquote hmore⟩, hskip.append hpass⟩

theorem fails_readQuoted : FailsAfter c (Begins QuotedText) (readQuoted c) := by
  have hempty : Begins QuotedText [] := ⟨['"', '"'], "", .mk rfl .close⟩
  refine fails_afterPeek ?_
  cases hhead : c.rest.head? with
  | none => exact (fails_fail _).of_nil hempty
  | some quote =>
      dsimp only
      split
      · next hquote =>
        refine fails_afterSkip hhead fun c₁ hopen => ?_
        generalize hunquote : unquote quote c₁.position c₁.rest = outcome
        obtain ⟨_ | content, after⟩ := outcome
        · obtain ⟨⟨more, content, hmore⟩, hpass⟩ := unquote_completes hunquote
          exact ⟨quote :: c₁.rest, after.rest, ⟨more, _, .mk hquote hmore⟩, hopen.append hpass⟩
        · trivial
      · exact (fails_fail _).of_nil hempty

end Reader

end TreeQuery
