import TreeQuery.Proofs.Reading

/-!
# Tokens

The forms of the texts that have no parts: integers and text in quotes.  Each form
is a relation between a text and what it stands for, and the reader of the form
succeeds exactly on the texts of it.

Text in quotes ends at its own closing quote, whatever follows.  An integer takes
all characters that a numeral may hold, so what follows it must be another one.
-/

namespace TreeQuery

open Cursor

/-! ## Integers -/

namespace Numeral

/-- A run of decimal digits and its value. -/
def DigitsText (digits : List Char) (value : Nat) : Prop :=
  digits ≠ [] ∧ (∀ c ∈ digits, c.isDigit = true) ∧ Nat.ofDigitChars 10 digits 0 = value

/-- `integer := ('+' | '-')? digits` -/
inductive IntegerText : List Char → Int → Prop where
  | unsigned {digits : List Char} {value : Nat} :
      DigitsText digits value → IntegerText digits value
  | plus {digits : List Char} {value : Nat} :
      DigitsText digits value → IntegerText ('+' :: digits) value
  | minus {digits : List Char} {value : Nat} :
      DigitsText digits value → IntegerText ('-' :: digits) (-value)

theorem natural?_eq_some {text : List Char} {value : Nat} :
    natural? text = some value ↔ DigitsText text value := by
  simp only [natural?, DigitsText, ← List.all_eq_true]
  split
  · next h => simp [h]
  · next h =>
    split
    · next hall => simp [h, hall]
    · next hall => simp [h, hall]

/-- A digit is no sign to split off. -/
theorem splitSign_of_isDigit {c : Char} (h : c.isDigit = true) (rest : List Char) :
    splitSign (c :: rest) = (false, c :: rest) := by
  have hminus : c ≠ '-' := by
    rintro rfl
    exact absurd h (by decide)
  have hplus : c ≠ '+' := by
    rintro rfl
    exact absurd h (by decide)
  unfold splitSign
  split
  · next heq => exact absurd (List.cons.inj heq).1 hminus
  · next heq => exact absurd (List.cons.inj heq).1 hplus
  · rfl

theorem DigitsText.splitSign {digits : List Char} {value : Nat} (h : DigitsText digits value) :
    splitSign digits = (false, digits) := by
  cases digits with
  | nil => exact absurd rfl h.1
  | cons c rest => exact splitSign_of_isDigit (h.2.1 c (List.mem_cons_self ..)) rest

/-- The integers that are read are those written in digits after at most one
sign. -/
theorem integer?_eq_some {text : List Char} {value : Int} :
    integer? text = some value ↔ IntegerText text value := by
  constructor
  · intro h
    unfold integer? Numeral.splitSign at h
    split at h
    next negative digits hsplit =>
      obtain ⟨value', hvalue', hvalue⟩ := Option.map_eq_some_iff.mp h
      obtain ⟨n, hn, hcast⟩ := Option.bind_eq_some_iff.mp hvalue'
      obtain rfl : (n : Int) = value' := Option.some.inj hcast
      have hdigits := natural?_eq_some.mp hn
      split at hsplit
      · obtain ⟨rfl, rfl⟩ := Prod.mk.inj hsplit
        subst hvalue
        exact .minus hdigits
      · obtain ⟨rfl, rfl⟩ := Prod.mk.inj hsplit
        subst hvalue
        exact .plus hdigits
      · obtain ⟨rfl, rfl⟩ := Prod.mk.inj hsplit
        subst hvalue
        exact .unsigned hdigits
  · intro h
    cases h with
    | unsigned hdigits =>
        simp [integer?, hdigits.splitSign, natural?_eq_some.mpr hdigits]
    | plus hdigits =>
        simp [integer?, Numeral.splitSign, natural?_eq_some.mpr hdigits]
    | minus hdigits =>
        simp [integer?, Numeral.splitSign, natural?_eq_some.mpr hdigits]

theorem inInt64_toInt (n : Int64) : inInt64 n.toInt = true := by
  simp only [inInt64, Bool.and_eq_true, decide_eq_true_eq]
  exact ⟨n.minValue_le_toInt, n.toInt_le⟩

/-- An integer in the range keeps its value in 64 bits. -/
theorem toInt_ofInt {n : Int} (h : inInt64 n = true) : (Int64.ofInt n).toInt = n := by
  simp only [inInt64, Bool.and_eq_true, decide_eq_true_eq] at h
  have hlimit := Int.lt_add_one_of_le h.2
  rw [Int64.toInt_maxValue_add_one] at hlimit
  exact Int64.toInt_ofInt_of_le h.1 hlimit

/-- An integer of 64 bits is read where it is written. -/
theorem int64?_eq_some {text : List Char} {n : Int64} :
    int64? text = some n ↔ IntegerText text n.toInt := by
  rw [int64?, Option.bind_eq_some_iff]
  constructor
  · rintro ⟨value, hvalue, h⟩
    split at h
    · next hrange =>
      obtain rfl := Option.some.inj h
      rw [toInt_ofInt hrange]
      exact integer?_eq_some.mp hvalue
    · cases h
  · intro h
    refine ⟨n.toInt, integer?_eq_some.mpr h, ?_⟩
    rw [if_pos (inInt64_toInt n), Int64.ofInt_toInt]

/-- An integer holds nothing but digits and signs. -/
theorem IntegerText.isDigit_or_sign {text : List Char} {value : Int}
    (h : IntegerText text value) : ∀ c ∈ text, c.isDigit = true ∨ c = '-' ∨ c = '+' := by
  cases h with
  | unsigned hn => exact fun c hc => .inl (hn.2.1 c hc)
  | plus hn => exact List.forall_mem_cons.mpr ⟨by simp, fun c hc => .inl (hn.2.1 c hc)⟩
  | minus hn => exact List.forall_mem_cons.mpr ⟨by simp, fun c hc => .inl (hn.2.1 c hc)⟩

theorem IntegerText.isNumeralChar {text : List Char} {value : Int} (h : IntegerText text value) :
    ∀ c ∈ text, Reader.isNumeralChar c = true := by
  intro c hc
  obtain hdigit | rfl | rfl := h.isDigit_or_sign c hc
  · simp [Reader.isNumeralChar, hdigit]
  · decide
  · decide

theorem IntegerText.ne_nil {text : List Char} {value : Int} (h : IntegerText text value) :
    text ≠ [] := by
  cases h with
  | unsigned hn => exact hn.1
  | plus => exact List.cons_ne_nil _ _
  | minus => exact List.cons_ne_nil _ _

end Numeral

namespace Reader

theorem readInteger_eq_ok {before after : Cursor} {n : Int64} :
    readInteger before = .ok n after
      ↔ ∃ text, Numeral.IntegerText text n.toInt ∧ before.Passes text after
          ∧ Stops isNumeralChar after.rest := by
  have hrun : readInteger before = .ok n after
      ↔ ∃ text, readWhile isNumeralChar before = .ok text after
          ∧ Numeral.int64? text = some n := by
    unfold readInteger readWhile
    dsimp only
    split
    · next m hm =>
      constructor
      · intro h
        obtain ⟨rfl, rfl⟩ := EStateM.Result.ok.inj h
        exact ⟨_, rfl, hm⟩
      · rintro ⟨text, h, hn⟩
        obtain ⟨rfl, rfl⟩ := EStateM.Result.ok.inj h
        rw [Option.some.inj (hm.symm.trans hn)]
    · next hm =>
      constructor
      · intro h
        cases h
      · rintro ⟨text, h, hn⟩
        obtain ⟨rfl, rfl⟩ := EStateM.Result.ok.inj h
        cases hm.symm.trans hn
  rw [hrun]
  constructor
  · rintro ⟨text, hread, hn⟩
    obtain ⟨hpass, -, hstops⟩ := readWhile_eq_ok.mp hread
    exact ⟨text, Numeral.int64?_eq_some.mp hn, hpass, hstops⟩
  · rintro ⟨text, hn, hpass, hstops⟩
    exact ⟨text, readWhile_eq_ok.mpr ⟨hpass, hn.isNumeralChar, hstops⟩,
      Numeral.int64?_eq_some.mpr hn⟩

/-! ## Text in quotes -/

/-- What follows an opening quote, up to and with the closing one, and the text it
stands for.  A backslash is dropped, and the character after it is kept. -/
inductive QuotedRest (quote : Char) : List Char → List Char → Prop where
  | close : QuotedRest quote [quote] []
  | escaped {c : Char} {rest text : List Char} :
      QuotedRest quote rest text → QuotedRest quote ('\\' :: c :: rest) (c :: text)
  | plain {c : Char} {rest text : List Char} : c ≠ '\\' → c ≠ quote →
      QuotedRest quote rest text → QuotedRest quote (c :: rest) (c :: text)

/-- Text in quotes of either kind: `quoted := '"' chars '"' | '\'' chars '\''` -/
inductive QuotedText : List Char → String → Prop where
  | mk {quote : Char} {rest text : List Char} : isQuote quote = true →
      QuotedRest quote rest text → QuotedText (quote :: rest) (String.ofList text)

theorem isQuote_eq_true {c : Char} : isQuote c = true ↔ c = '"' ∨ c = '\'' := by
  simp [isQuote]

theorem unquote_sound {quote : Char} {position : Nat} {chars text : List Char} {after : Cursor}
    (h : unquote quote position chars = (some text, after)) :
    ∃ rest, QuotedRest quote rest text ∧ Passes ⟨position, chars⟩ rest after := by
  fun_induction unquote quote position chars generalizing text after with
  | case1 position => cases h
  | case2 position => cases h
  | case3 position c chars text' cursor heq ih =>
      obtain ⟨htext, rfl⟩ := Prod.mk.inj h
      obtain ⟨tail, rfl, rfl⟩ := Option.map_eq_some_iff.mp htext
      obtain ⟨rest, hrest, hpass⟩ := ih heq
      refine ⟨'\\' :: c :: rest, .escaped hrest, ?_⟩
      have hskip : Passes ⟨position, '\\' :: c :: chars⟩ ['\\', c]
          ⟨position + 1 + c.utf8Size, chars⟩ := ⟨rfl, by simp [Nat.add_assoc]; rfl⟩
      exact hskip.append hpass
  | case4 position chars hend hescape =>
      obtain ⟨htext, rfl⟩ := Prod.mk.inj h
      obtain rfl := Option.some.inj htext
      exact ⟨[quote], .close, rfl, rfl⟩
  | case5 position c chars hend hescape hquote text' cursor heq ih =>
      obtain ⟨htext, rfl⟩ := Prod.mk.inj h
      obtain ⟨tail, rfl, rfl⟩ := Option.map_eq_some_iff.mp htext
      obtain ⟨rest, hrest, hpass⟩ := ih heq
      have hplain : c ≠ '\\' := by
        rintro rfl
        cases chars with
        | nil => exact hend rfl rfl
        | cons d chars => exact hescape d chars rfl rfl
      refine ⟨c :: rest, .plain hplain hquote hrest, ?_⟩
      have hskip : Passes ⟨position, c :: chars⟩ [c] ⟨position + c.utf8Size, chars⟩ := ⟨rfl, rfl⟩
      exact hskip.append hpass

theorem unquote_complete {quote : Char} (hquote : quote ≠ '\\') {rest text : List Char}
    (h : QuotedRest quote rest text) :
    ∀ (position : Nat) (chars : List Char), unquote quote position (rest ++ chars)
      = (some text, ⟨position + Text.byteLength rest, chars⟩) := by
  induction h with
  | close =>
      intro position chars
      rw [List.singleton_append, unquote]
      · simp
      · intro hbad
        exact absurd hbad hquote
      · intro c rest hbad
        exact absurd hbad hquote
  | @escaped c rest text hrest ih =>
      intro position chars
      have hsize : ('\\' : Char).utf8Size = 1 := rfl
      rw [List.cons_append, List.cons_append, unquote, ih]
      simp [hsize, Nat.add_assoc]
  | @plain c rest text hplain hne hrest ih =>
      intro position chars
      rw [List.cons_append, unquote]
      · rw [if_neg hne, ih]
        simp [Nat.add_assoc]
      · intro hbad
        exact absurd hbad hplain
      · intro d tail hbad
        exact absurd hbad hplain

theorem readQuoted_eq_ok {before after : Cursor} {s : String} :
    readQuoted before = .ok s after ↔ ∃ text, QuotedText text s ∧ before.Passes text after := by
  rw [readQuoted, bind_eq_ok]
  constructor
  · rintro ⟨found, middle, hpeek, h⟩
    obtain ⟨rfl, rfl⟩ := peek_eq_ok.mp hpeek
    cases hfound : middle.rest.head? with
    | none =>
      rw [hfound] at h
      exact absurd h fail_ne_ok
    | some quote =>
      rw [hfound] at h
      dsimp only at h
      split at h
      · next hquote =>
        obtain ⟨_, inside, hskip, h⟩ := bind_eq_ok.mp h
        have hopen := (skip_eq_ok hfound).mp hskip
        generalize hunquote : unquote quote inside.position inside.rest = outcome at h
        obtain ⟨result, stop⟩ := outcome
        cases result with
        | none => cases h
        | some text =>
            obtain ⟨rfl, rfl⟩ := EStateM.Result.ok.inj h
            obtain ⟨rest, hrest, hpass⟩ := unquote_sound hunquote
            exact ⟨quote :: rest, .mk hquote hrest, hopen.append hpass⟩
      · exact absurd h fail_ne_ok
  · rintro ⟨_, @⟨quote, rest, text, hquote, hrest⟩, hpass⟩
    have hne : quote ≠ '\\' := by
      rintro rfl
      exact absurd hquote (by decide)
    obtain ⟨inside, hopen, hinside⟩ := passes_cons.mp hpass
    have hfound : before.rest.head? = some quote := by rw [hopen.1]; rfl
    refine ⟨_, _, peek_eq_ok.mpr ⟨rfl, rfl⟩, ?_⟩
    simp only [hfound, if_pos hquote]
    refine bind_eq_ok.mpr ⟨(), inside, (skip_eq_ok hfound).mpr hopen, ?_⟩
    obtain ⟨position, chars⟩ := inside
    obtain ⟨position', chars'⟩ := after
    obtain ⟨hrest', hposition⟩ := hinside
    dsimp only at hrest' hposition ⊢
    rw [hrest', unquote_complete hne hrest, hposition]

end Reader

end TreeQuery
