import TreeQuery.Proofs.Literal.Parsing
import TreeQuery.Proofs.Value.Merging

/-!
# What literals denote

A text is read as a value exactly when the grammar derives it, blanks around it left
aside (`parse_eq_ok`).  Two productions of the grammar name functions of the reader,
the leaf of a bare word and the compound of some entries.  Here both get a
description that does not read anything: `WordText` says which leaf a word stands
for, by the forms of words, and `Compound.Merges` which entries are left.

The forms of words overlap.  An integer is also the text of a float, and a word that
nothing else fits is a text.  So the later forms exclude the earlier ones.
-/

namespace TreeQuery.Literal

open Reader Cursor

/-! ## Bare words -/

/-- The word is the text of a float: it starts as a number does, which no word for an
infinity or a missing number without a sign does. -/
def FloatText (word : List Char) (x : Binary64) : Prop :=
  (∃ c ∈ word.head?, startsNumber c = true) ∧ Numeral.float? word = some x

/-- No integer of 64 bits is written so. -/
def NoInteger (word : List Char) : Prop := ∀ n : Int64, ¬Numeral.IntegerText word n.toInt

/-- The leaf a bare word stands for: a truth value, an integer, a float, or else the
word itself as a text. -/
inductive WordText : List Char → Scalar → Prop where
  | yes : WordText "true".toList (.bool true)
  | no : WordText "false".toList (.bool false)
  | int {word : List Char} {n : Int64} :
      Numeral.IntegerText word n.toInt → WordText word (.int n)
  | float {word : List Char} {x : Binary64} :
      NoInteger word → FloatText word x → WordText word (.float x)
  | text {word : List Char} : word ≠ "true".toList → word ≠ "false".toList →
      NoInteger word → (∀ x, ¬FloatText word x) → WordText word (.string (String.ofList word))

theorem int64?_eq_none {word : List Char} : Numeral.int64? word = none ↔ NoInteger word := by
  simp only [NoInteger, ← Numeral.int64?_eq_some, Option.eq_none_iff_forall_ne_some]

theorem float?_eq_some {word : List Char} {x : Binary64} :
    (if word.head?.any startsNumber then Numeral.float? word else none) = some x
      ↔ FloatText word x := by
  have hstart : word.head?.any startsNumber = true ↔ ∃ c ∈ word.head?, startsNumber c = true := by
    cases word.head? <;> simp
  rw [FloatText, ← hstart]
  split
  · next h => simp [h]
  · next h => simp [h]

theorem float?_eq_none {word : List Char} :
    (if word.head?.any startsNumber then Numeral.float? word else none) = none
      ↔ ∀ x, ¬FloatText word x := by
  simp only [← float?_eq_some, Option.eq_none_iff_forall_ne_some]

/-- A word for a truth value is not the text of a number. -/
theorem ne_truth_of_integerText {word : List Char} {value : Int}
    (h : Numeral.IntegerText word value) : word ≠ "true".toList ∧ word ≠ "false".toList := by
  have hchars := h.isNumeralChar
  constructor
  · rintro rfl
    exact absurd (hchars 't' (by simp)) (by decide)
  · rintro rfl
    exact absurd (hchars 'f' (by simp)) (by decide)

theorem FloatText.ne_truth {word : List Char} {x : Binary64} (h : FloatText word x) :
    word ≠ "true".toList ∧ word ≠ "false".toList := by
  obtain ⟨⟨c, hc, hstart⟩, -⟩ := h
  constructor
  · rintro rfl
    obtain rfl := Option.some.inj hc
    exact absurd hstart (by decide)
  · rintro rfl
    obtain rfl := Option.some.inj hc
    exact absurd hstart (by decide)

/-- Each bare word stands for one leaf. -/
theorem bareScalar_eq_iff {word : List Char} {leaf : Scalar} :
    bareScalar word = leaf ↔ WordText word leaf := by
  constructor
  · rintro rfl
    unfold bareScalar
    split
    · next h => exact h ▸ .yes
    · next hyes =>
      split
      · next h => exact h ▸ .no
      · next hno =>
        split
        · next n hn => exact .int (Numeral.int64?_eq_some.mp hn)
        · next hn =>
          split
          · next x hx => exact .float (int64?_eq_none.mp hn) (float?_eq_some.mp hx)
          · next hx => exact .text hyes hno (int64?_eq_none.mp hn) (float?_eq_none.mp hx)
  · intro h
    cases h with
    | yes => rfl
    | no => rfl
    | int hint =>
        have hn := Numeral.int64?_eq_some.mpr hint
        have hne := ne_truth_of_integerText hint
        simp only [bareScalar, if_neg hne.1, if_neg hne.2, hn]
    | float hint hfloat =>
        have hne := hfloat.ne_truth
        simp only [bareScalar, if_neg hne.1, if_neg hne.2, int64?_eq_none.mpr hint,
          float?_eq_some.mpr hfloat]
    | text hyes hno hint hfloat =>
        simp only [bareScalar, if_neg hyes, if_neg hno, int64?_eq_none.mpr hint,
          float?_eq_none.mpr hfloat]

/-! ## Whole texts -/

/-- Where no container is open yet, there is room for as many as the limit says. -/
theorem read_eq_ok {limit : Nat} {before after : Cursor} {value : Value} :
    read limit before = .ok value after
      ↔ valueWithin limit limit ⟨before, 0⟩ = .ok value ⟨after, 0⟩ := by
  have hstart : readValue limit ⟨before, 0⟩ = valueWithin limit limit ⟨before, 0⟩ := rfl
  rw [read, fromOutside, hstart]
  constructor
  · intro h
    cases hrun : valueWithin limit limit ⟨before, 0⟩ with
    | ok found s =>
        rw [hrun] at h
        obtain ⟨rfl, rfl⟩ := EStateM.Result.ok.inj h
        obtain ⟨-, -, -, -, -, hdepth⟩ := valueWithin_takes limit limit hrun
        obtain ⟨cursor, depth⟩ := s
        obtain rfl : depth = 0 := hdepth
        rfl
    | error e s =>
        rw [hrun] at h
        cases h
  · intro h
    rw [h]

/-- What the grammar derives is read, unless more containers are inside each other in it
than the limit says.  Then the limit may be the fault. -/
theorem read_accepts (excused : SyntaxFault → Prop) {limit nesting : Nat} {before after : Cursor}
    {gap text : List Char} {value : Value} (h : limit < nesting → excused (.tooDeep limit))
    (hgap : Gap gap) (htext : ValueText nesting text value)
    (hpass : before.Passes (gap ++ text) after) (hstop : Stops isBare after.rest) :
    read limit before = .ok value after
      ∨ ∃ error stop, excused error.fault ∧ read limit before = .error error stop := by
  have hrun : Yields excused (valueWithin limit limit) ⟨before, 0⟩ value ⟨after, 0⟩ :=
    valueWithin_accepts h hgap htext hpass hstop rfl
  obtain hread | ⟨error, stop, hexcused, hread⟩ := hrun
  · exact .inl (read_eq_ok.mpr hread)
  · refine .inr ⟨error, stop.cursor, hexcused, ?_⟩
    have hstart : readValue limit ⟨before, 0⟩ = valueWithin limit limit ⟨before, 0⟩ := rfl
    rw [read, fromOutside, hstart, hread]

/-- Up to the limit nothing is excused. -/
theorem read_of_valueText {limit : Nat} {before after : Cursor} {gap text : List Char}
    {value : Value} (hgap : Gap gap) (htext : ValueText limit text value)
    (hpass : before.Passes (gap ++ text) after) (hstop : Stops isBare after.rest) :
    read limit before = .ok value after := by
  obtain hread | ⟨-, -, hfalse, -⟩ :=
    read_accepts (fun _ => False) (Nat.lt_irrefl limit) hgap htext hpass hstop
  · exact hread
  · exact hfalse.elim

/-- Only blanks may follow the value in a whole text. -/
theorem parse_eq_ok_iff_read {text : String} {value : Value} :
    parse text = .ok value
      ↔ ∃ after, read defaultLimit (.atStart text.toList) = .ok value after ∧ Gap after.rest := by
  have hwhole : (∃ after, (do
        let value ← read defaultLimit
        skipBlanks
        if (← peek).isSome then fail .trailingInput else pure value : Reader Value)
          (.atStart text.toList) = .ok value after)
      ↔ ∃ after, read defaultLimit (.atStart text.toList) = .ok value after ∧ Gap after.rest := by
    simp only [bind_eq_ok]
    constructor
    · rintro ⟨after, found, c₁, hread, _, c₂, hblanks, next, c₃, hpeek, h⟩
      obtain ⟨gap, hgap, hpass, -⟩ := skipBlanks_eq_ok.mp hblanks
      obtain ⟨rfl, rfl⟩ := peek_eq_ok.mp hpeek
      split at h
      · exact absurd h fail_ne_ok
      · next hnext =>
        obtain ⟨rfl, rfl⟩ := pure_eq_ok.mp h
        rw [Option.not_isSome_iff_eq_none, List.head?_eq_none_iff] at hnext
        refine ⟨c₁, hread, ?_⟩
        rwa [hpass.1, hnext, List.append_nil]
    · rintro ⟨after, hread, hgap⟩
      have hblanks : skipBlanks after = .ok () ⟨after.position + Text.byteLength after.rest, []⟩ :=
        skipBlanks_eq_ok.mpr ⟨after.rest, hgap, ⟨by simp, rfl⟩, stops_nil _⟩
      exact ⟨_, value, after, hread, (), _, hblanks, none, _, peek_eq_ok.mpr ⟨rfl, rfl⟩, rfl⟩
  rw [← hwhole]
  unfold parse
  dsimp only
  constructor
  · intro h
    split at h
    · next found after hread =>
      obtain rfl := Except.ok.inj h
      exact ⟨after, hread⟩
    · cases h
  · rintro ⟨after, hread⟩
    rw [hread]

/-- A text is read as a value exactly when the grammar derives it, blanks around it
left aside. -/
theorem parse_eq_ok {text : String} {value : Value} :
    parse text = .ok value ↔ ∃ before inner after, text.toList = before ++ inner ++ after
      ∧ Gap before ∧ Gap after ∧ ValueText defaultLimit inner value := by
  rw [parse_eq_ok_iff_read]
  constructor
  · rintro ⟨c, hread, hafter⟩
    obtain ⟨before, inner, hbefore, hinner, hpass, -⟩ :=
      valueWithin_takes defaultLimit defaultLimit (read_eq_ok.mp hread)
    exact ⟨before, inner, c.rest, hpass.1, hbefore, hafter, hinner⟩
  · rintro ⟨before, inner, after, htext, hbefore, hafter, hinner⟩
    refine ⟨⟨Text.byteLength (before ++ inner), after⟩, ?_, hafter⟩
    have hstop : Stops isBare after := by
      simpa using stops_isBare_of_gap hafter (stops_nil isBare)
    exact read_of_valueText hbefore hinner ⟨htext, (Nat.zero_add _).symm⟩ hstop

/-- The values of texts, without the reader: the grammar derives the text with at most
512 containers inside each other, a bare word stands for the first of its forms that
fits, and the entries of a compound are merged. -/
theorem parse_denotes :
    (∀ (text : String) (value : Value), parse text = .ok value
        ↔ ∃ before inner after, text.toList = before ++ inner ++ after
          ∧ Gap before ∧ Gap after ∧ ValueText 512 inner value)
      ∧ (∀ word leaf, bareScalar word = leaf ↔ WordText word leaf)
      ∧ ∀ entries compound, Compound.ofList entries = compound
        ↔ Compound.Merges entries compound :=
  ⟨fun _ _ => parse_eq_ok, fun _ _ => bareScalar_eq_iff, fun _ _ => Compound.ofList_eq_iff⟩

end TreeQuery.Literal
