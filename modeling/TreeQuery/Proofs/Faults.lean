import TreeQuery.Literal.Bare
import TreeQuery.Path.Reader
import TreeQuery.Proofs.Completion

/-!
# What a fault says about its place

The fault of an error names a cause, and often a character or a limit with it.
`SyntaxFault.TrueAt` says for each fault what is then true of the text before the error
and of the text after it.  `Truthful` says that an outcome is no failure, or one whose
fault is true where it is.

What a reader finds wrong stays wrong when more text stands before the place where it
started.  So the laws of readers go together as those of `FailsAfter` do.

A container is refused when as many are open as the limit allows.  Every one of them
took its opening bracket.  So at least as many characters stand before the refusal, and
a limit that is not less than the length of the text refuses nothing.
-/

namespace TreeQuery

open Cursor

/-- What the fault says of the text around it.  As many containers as given were open where
the text before it starts.  When text follows the end, the given condition holds. -/
def SyntaxFault.TrueAt (limit opened : Nat) (ended : Prop) (before after : List Char) :
    SyntaxFault → Prop
  | .missingKey found => found = after.head? ∧ Stops Path.isKeyChar after
  | .badIndex text =>
      text.toList = after.takeWhile Reader.isNumeralChar ∧ Numeral.int64? text.toList = none
  | .expected wanted found => found = after.head? ∧ found ≠ some wanted
  | .unexpectedEnd _ => after = []
  | .misplacedRootFilter => before ≠ [] ∧ after.head? = some '\x7b'
  | .badInteger _ => False
  | .trailingComma close => after.head? = some close
  | .missingEntryKey | .missingValue => after ≠ [] ∧ Stops Literal.isBare after
  | .tooDeep most =>
      most = limit ∧ limit ≤ opened + before.length
        ∧ (after.head? = some '\x7b' ∨ after.head? = some '[')
  | .trailingInput => ended

/-- The error is at a place of the text where its fault is true.  A condition says what is
known of the text before and after the place when text follows the end. -/
def SyntaxError.TrueOf (limit : Nat) (ended : String → String → Prop) (text : String)
    (error : SyntaxError) : Prop :=
  ∃ before after : String, text = before ++ after
    ∧ Text.byteLength before.toList = error.position
    ∧ error.fault.TrueAt limit 0 (ended before after) before.toList after.toList

/-- Where the reading that started at a cursor has failed, the fault is true of its place,
and no text follows an end. -/
def Truthful {σ α : Type} (limit opened : Nat) (origin : Cursor) :
    EStateM.Result SyntaxError σ α → Prop
  | .ok _ _ => True
  | .error error _ => ∃ before after, origin.Passes before ⟨error.position, after⟩
      ∧ error.fault.TrueAt limit opened False before after

section

variable {limit opened opened' : Nat} {ended : Prop} {before after text : List Char}
  {fault : SyntaxFault}

/-- A fault stays true with more text before it, if no more containers are opened than
characters are read in it. -/
theorem SyntaxFault.TrueAt.passed (h : fault.TrueAt limit opened' ended before after)
    (hopened : opened' ≤ opened + text.length) :
    fault.TrueAt limit opened ended (text ++ before) after := by
  cases fault with
  | misplacedRootFilter => exact ⟨fun hnil => h.1 (List.append_eq_nil_iff.mp hnil).2, h.2⟩
  | tooDeep most =>
      obtain ⟨hmost, hdeep, hhead⟩ := h
      refine ⟨hmost, ?_, hhead⟩
      rw [List.length_append]
      omega
  | _ => exact h

/-- Only where text follows an end does the condition on it matter. -/
theorem SyntaxFault.TrueAt.of_false (h : fault.TrueAt limit opened False before after) :
    fault.TrueAt limit opened ended before after := by
  cases fault with
  | trailingInput => exact h.elim
  | _ => exact h

/-- A limit that is not less than the length of the text is not exceeded. -/
theorem SyntaxFault.TrueAt.limit_lt {most : Nat}
    (h : (SyntaxFault.tooDeep most).TrueAt limit 0 ended before after) :
    limit < (before ++ after).length := by
  obtain ⟨-, hdeep, hhead⟩ := h
  cases after with
  | nil => simp at hhead
  | cons c after =>
      simp only [List.length_append, List.length_cons]
      omega

end

/-! ## Readers one after the other -/

section

variable {σ α β : Type} {limit opened opened' : Nat} {origin middle : Cursor}
  {read : EStateM SyntaxError σ α} {next : α → EStateM SyntaxError σ β} {s s₁ : σ} {a : α}

/-- A fault that comes after some text has been read. -/
theorem Truthful.passed {outcome : EStateM.Result SyntaxError σ α} {text : List Char}
    (h : Truthful limit opened' middle outcome) (hpass : origin.Passes text middle)
    (hopened : opened' ≤ opened + text.length) : Truthful limit opened origin outcome := by
  cases outcome with
  | ok a s => trivial
  | error error s =>
      obtain ⟨before, after, hbefore, htrue⟩ := h
      exact ⟨text ++ before, after, hpass.append hbefore, htrue.passed hopened⟩

/-- The same, where no container is opened. -/
theorem Truthful.after {outcome : EStateM.Result SyntaxError σ α} {text : List Char}
    (h : Truthful limit opened middle outcome) (hpass : origin.Passes text middle) :
    Truthful limit opened origin outcome :=
  h.passed hpass (Nat.le_add_right ..)

theorem Truthful.bind (h : Truthful limit opened origin (read s))
    (hnext : ∀ a s₁, read s = .ok a s₁ → Truthful limit opened origin (next a s₁)) :
    Truthful limit opened origin ((read >>= next) s) := by
  cases hread : read s with
  | ok a s₁ =>
      rw [bind_of_ok hread]
      exact hnext a s₁ hread
  | error error s₁ =>
      rw [bind_of_error hread]
      rw [hread] at h
      exact h

/-- Only the second reader can fail. -/
theorem truthful_of_ok (hread : read s = .ok a s₁)
    (h : Truthful limit opened origin (next a s₁)) :
    Truthful limit opened origin ((read >>= next) s) := by
  rwa [bind_of_ok hread]

/-- Only the first reader can fail. -/
theorem Truthful.map (h : Truthful limit opened origin (read s)) (f : α → β) :
    Truthful limit opened origin ((read >>= fun a => pure (f a)) s) :=
  h.bind fun _ _ _ => trivial

end

/-! ## Whole texts -/

section

variable {limit : Nat} {ended : String → String → Prop} {text : String}

/-- An error at a cursor that the reading of the text has come to. -/
theorem trueOf_of_passes {fault : SyntaxFault} {before : List Char} {stop : Cursor}
    (hpass : (Cursor.atStart text.toList).Passes before stop)
    (htrue : fault.TrueAt limit 0 (ended (String.ofList before) (String.ofList stop.rest))
      before stop.rest) : SyntaxError.TrueOf limit ended text ⟨fault, stop.position⟩ := by
  obtain ⟨htext, hposition⟩ := append_of_passes hpass
  refine ⟨String.ofList before, String.ofList stop.rest, htext, hposition, ?_⟩
  rw [String.toList_ofList, String.toList_ofList]
  exact htrue

theorem Truthful.trueOf {σ α : Type} {error : SyntaxError} {stop : σ}
    (h : Truthful limit 0 (.atStart text.toList)
      (.error error stop : EStateM.Result SyntaxError σ α)) : error.TrueOf limit ended text := by
  obtain ⟨before, after, hpass, htrue⟩ := h
  exact trueOf_of_passes hpass htrue.of_false

end

namespace Reader

variable {α : Type} {limit opened : Nat} {c : Cursor}

/-! ## Single characters -/

theorem truthful_fail {fault : SyntaxFault}
    (h : fault.TrueAt limit opened False [] c.rest) :
    Truthful limit opened c (fail (α := α) fault c) :=
  ⟨[], c.rest, Passes.refl c, h⟩

/-- To look at the next character does not fail. -/
theorem truthful_afterPeek {next : Option Char → Reader α}
    (h : Truthful limit opened c (next c.rest.head? c)) :
    Truthful limit opened c ((peek >>= next) c) :=
  truthful_of_ok (peek_eq_ok.mpr ⟨rfl, rfl⟩) h

theorem truthful_skip : Truthful limit opened c (skip c) := by
  rw [skip]
  cases c.rest with
  | nil => trivial
  | cons d rest => trivial

theorem truthful_expect (wanted : Char) : Truthful limit opened c (expect wanted c) := by
  refine truthful_afterPeek ?_
  split
  · exact truthful_skip
  · next hfound => exact truthful_fail ⟨rfl, hfound⟩

/-- A character that stands next is read without an error. -/
theorem truthful_afterSkip {next : Unit → Reader α} {d : Char} (hhead : c.rest.head? = some d)
    (h : ∀ c₁, c.Passes [d] c₁ → Truthful limit opened c₁ (next () c₁)) :
    Truthful limit opened c ((skip >>= next) c) := by
  obtain ⟨c₁, hskip, hpass⟩ := skip_of_head hhead
  exact truthful_of_ok hskip ((h c₁ hpass).after hpass)

/-- A run of characters is read without an error, and none of them comes next. -/
theorem truthful_afterRun {accept : Char → Bool} {next : List Char → Reader α}
    (h : ∀ word c₁, c.Passes word c₁ → Stops accept c₁.rest →
      Truthful limit opened c₁ (next word c₁)) :
    Truthful limit opened c ((readWhile accept >>= next) c) := by
  obtain ⟨word, c₁, hword⟩ : ∃ word c₁, readWhile accept c = .ok word c₁ := ⟨_, _, rfl⟩
  obtain ⟨hpass, -, hstops⟩ := readWhile_eq_ok.mp hword
  exact truthful_of_ok hword ((h word c₁ hpass hstops).after hpass)

/-- Blanks are read without an error. -/
theorem truthful_afterBlanks {next : Unit → Reader α}
    (h : ∀ c₁, Truthful limit opened c₁ (next () c₁)) :
    Truthful limit opened c ((skipBlanks >>= next) c) := by
  obtain ⟨gap, c₁, hblanks, -, hpass⟩ := skipBlanks_passes c
  exact truthful_of_ok hblanks ((h c₁).after hpass)

/-! ## Text in quotes -/

theorem truthful_readQuoted : Truthful limit opened c (readQuoted c) := by
  refine truthful_afterPeek ?_
  cases hhead : c.rest.head? with
  | none => exact truthful_fail ⟨hhead.symm, by simp⟩
  | some quote =>
      dsimp only
      split
      · refine truthful_afterSkip hhead fun c₁ _ => ?_
        generalize hunquote : unquote quote c₁.position c₁.rest = outcome
        obtain ⟨_ | content, after⟩ := outcome
        · obtain ⟨-, hpass⟩ := unquote_completes hunquote
          have hend : after.rest = [] := List.self_eq_append_right.mp hpass.1
          exact ⟨c₁.rest, after.rest, hpass, hend⟩
        · trivial
      · next hquote =>
        refine truthful_fail ⟨hhead.symm, fun hdouble => hquote ?_⟩
        rw [Option.some.inj hdouble]
        rfl

end Reader

end TreeQuery
