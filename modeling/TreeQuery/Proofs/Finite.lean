import Mathlib
import TreeQuery.Proofs.Json.Conversion
import TreeQuery.Proofs.Literal.RoundTrip
import TreeQuery.Proofs.Number.Overflow
import TreeQuery.Proofs.Path.Patterns

/-!
# What can be written back

A value is *restorable* when its literal is read as the value itself and its document
holds no null.  A value that was read is restorable if its floats are finite, and not
otherwise.

A word that starts with a letter is never a float, so `inf` and `NaN` are texts.  That does
not keep all words away which stand for no finite number.  With a sign they are floats, and
so is a numeral that is too great.  These words are *improper*.  They are exactly the words
that are read as an infinity or as a missing number (`Literal.improper_iff`).

So the values of literals and of filters are restorable, unless an improper word stands in
the text (`restorable_or_improper`).
-/

namespace TreeQuery

namespace Literal

open Reader

/-! ## Improper words -/

/-- The word stands for no finite number: it is a special word after a sign, or a numeral
that is too great. -/
inductive Improper : List Char → Prop where
  | special {sign : Char} {word : List Char} : sign = '+' ∨ sign = '-' →
      Numeral.IsSpecial word → Improper (sign :: word)
  | overflow {sign text : List Char} {negative : Bool} {d : Decimal} :
      Numeral.SignText sign negative → Numeral.UnsignedText text d → d.Overflows →
      Improper (sign ++ text)

theorem startsNumber_of_signText {sign text : List Char} {negative : Bool} {d : Decimal}
    (hsign : Numeral.SignText sign negative) (htext : Numeral.UnsignedText text d) :
    ∃ c ∈ (sign ++ text).head?, startsNumber c = true := by
  cases hsign with
  | none =>
      obtain ⟨c, rest, rfl, hdigit | rfl⟩ := htext.head
      · exact ⟨c, rfl, by simp [startsNumber, hdigit]⟩
      · exact ⟨'.', rfl, by decide⟩
  | plus => exact ⟨'+', rfl, by decide⟩
  | minus => exact ⟨'-', rfl, by decide⟩

/-- A word that is read as an infinity or as a missing number is not an integer. -/
theorem noInteger_of_not_isFinite {word : List Char} {x : Binary64}
    (h : Numeral.NumberText word x) (hfinite : x.isFinite = false) : NoInteger word := by
  intro n hint
  obtain ⟨negative, hnumber⟩ := hint.numberText
  have hread := Numeral.float?_eq_some.mpr h
  rw [Numeral.float?_eq_some.mpr hnumber] at hread
  have hnot := (Binary64.isFinite_ofDecimal negative ⟨_, 0⟩).mpr (Decimal.not_overflows_int64 n)
  rw [Option.some.inj hread, hfinite] at hnot
  cases hnot

section

variable {word : List Char} {x : Binary64}

theorem bareScalar_of_numberText (h : Numeral.NumberText word x) (hfinite : x.isFinite = false)
    (hstart : ∃ c ∈ word.head?, startsNumber c = true) : bareScalar word = .float x := by
  have hfloat : FloatText word x := ⟨hstart, Numeral.float?_eq_some.mpr h⟩
  exact bareScalar_eq_iff.mpr (.float (noInteger_of_not_isFinite h hfinite) hfloat)

theorem Improper.exists_float (h : Improper word) :
    ∃ x, bareScalar word = .float x ∧ x.isFinite = false := by
  cases h with
  | @special sign rest hsign hspecial =>
      have hstart : ∃ c ∈ (sign :: rest).head?, startsNumber c = true := by
        refine ⟨sign, rfl, ?_⟩
        obtain rfl | rfl := hsign <;> decide
      have hsignText : ∃ negative, Numeral.SignText [sign] negative := by
        obtain rfl | rfl := hsign
        · exact ⟨false, .plus⟩
        · exact ⟨true, .minus⟩
      obtain ⟨negative, hsignText⟩ := hsignText
      obtain hinf | hinfinity | hnan := hspecial
      · exact ⟨_, bareScalar_of_numberText (.infinite hsignText (.inl hinf)) rfl hstart, rfl⟩
      · exact ⟨_, bareScalar_of_numberText (.infinite hsignText (.inr hinfinity)) rfl hstart, rfl⟩
      · exact ⟨_, bareScalar_of_numberText (.missing hsignText hnan) rfl hstart, rfl⟩
  | @overflow sign text negative d hsign htext hoverflows =>
      have hfinite : (Binary64.ofDecimal negative d.digits d.exponent).isFinite = false := by
        rw [Bool.eq_false_iff, ne_eq, Binary64.isFinite_ofDecimal]
        exact not_not.mpr hoverflows
      have hstart := startsNumber_of_signText hsign htext
      exact ⟨_, bareScalar_of_numberText (.unsigned hsign htext) hfinite hstart, hfinite⟩

/-- A special word that starts as a number does has a sign. -/
theorem improper_of_special {sign rest : List Char} {negative : Bool}
    (hsign : Numeral.SignText sign negative) (hspecial : Numeral.IsSpecial rest)
    (hstart : ∃ c ∈ (sign ++ rest).head?, startsNumber c = true) : Improper (sign ++ rest) := by
  cases hsign with
  | none =>
      obtain ⟨first, others, rfl, hdigit, hpoint, hminus, hplus⟩ := hspecial.head
      obtain ⟨c, hc, hnumber⟩ := hstart
      obtain rfl := Option.some.inj hc
      simp [startsNumber, hdigit, hpoint, hminus, hplus] at hnumber
  | plus => exact .special (.inl rfl) hspecial
  | minus => exact .special (.inr rfl) hspecial

theorem improper_of_numberText (h : Numeral.NumberText word x) (hfinite : x.isFinite = false)
    (hstart : ∃ c ∈ word.head?, startsNumber c = true) : Improper word := by
  cases h with
  | infinite hsign hword => exact improper_of_special hsign (hword.imp_right .inl) hstart
  | missing hsign hword => exact improper_of_special hsign (.inr (.inr hword)) hstart
  | @unsigned sign text negative d hsign htext =>
      refine .overflow hsign htext (not_not.mp fun hnot => ?_)
      rw [(Binary64.isFinite_ofDecimal negative d).mpr hnot] at hfinite
      cases hfinite

/-- Improper words are the words that stand for a float that is not finite. -/
theorem improper_iff :
    Improper word ↔ ∃ x, bareScalar word = .float x ∧ x.isFinite = false := by
  refine ⟨Improper.exists_float, ?_⟩
  rintro ⟨x, hx, hfinite⟩
  have hword := bareScalar_eq_iff.mp hx
  cases hword with
  | float _ hfloat =>
      exact improper_of_numberText (Numeral.float?_eq_some.mp hfloat.2) hfinite hfloat.1

end

/-! ## Words in filters -/

/-- A bare word of a filter is one of every text that the filter stands in, since the filter
has braces at its ends. -/
theorem StandsIn.of_infix {nesting : Nat} {filter text word : List Char} {entries : Compound}
    (h : StandsIn word filter) (hfilter : CompoundText nesting filter entries)
    (hstands : filter <:+: text) : StandsIn word text := by
  have hhead := hfilter.head?
  have hlast := hfilter.getLast?
  obtain ⟨outer, outer', rfl⟩ := hstands
  obtain ⟨⟨hword, hbare⟩, before, after, rfl, hbefore, hafter⟩ := h
  have hbeforeNe : before ≠ [] := by
    rintro rfl
    obtain ⟨c, rest, rfl⟩ := List.exists_cons_of_ne_nil hword
    obtain rfl := Option.some.inj hhead
    exact absurd (hbare '\x7b' (List.mem_cons_self ..)) (by decide)
  have hafterNe : after ≠ [] := by
    rintro rfl
    rw [List.append_nil, List.getLast?_append_of_ne_nil _ hword] at hlast
    exact absurd (hbare '\x7d' (List.mem_of_getLast? hlast)) (by decide)
  refine ⟨⟨hword, hbare⟩, outer ++ before, after ++ outer', by simp, ?_,
    stops_append_of_ne_nil hafterNe hafter outer'⟩
  rw [List.reverse_append]
  exact stops_append_of_ne_nil (by simpa using hbeforeNe) hbefore outer.reverse

/-! ## Whole texts -/

theorem inside_of_gaps {before after : List Char} (hbefore : Gap before) (hafter : Gap after)
    (inner : List Char) : Inside inner (before ++ inner ++ after) := by
  have hstops : ∀ {gap : List Char}, Gap gap → Stops isBare gap := by
    intro gap hgap
    simpa using stops_isBare_of_gap hgap (stops_nil isBare)
  exact ⟨before, after, rfl, hstops fun c hc => hbefore c (List.mem_reverse.mp hc), hstops hafter⟩

/-- A bare word is read as its leaf. -/
theorem parse_word {word : List Char} (h : BareWord word) :
    parse (String.ofList word) = .ok (.scalar (bareScalar word)) :=
  parse_eq_ok.mpr ⟨[], word, [], by simp, Gap.nil, Gap.nil, .bare h⟩

end Literal

/-! ## Restorable values -/

/-- The value is read back from its literal, and its document holds no null. -/
structure Value.Restorable (value : Value) : Prop where
  /-- The floats are finite. -/
  finite : value.isFinite = true
  /-- The literal is read as the value. -/
  literal : Literal.parse value.literal = .ok value
  /-- No number makes the value differ from itself. -/
  equal : value.equal value = true
  /-- The document holds no null. -/
  document : value.toJson.Representable

theorem Value.Keyed.isReadable {value : Value} (hkeyed : value.Keyed)
    (h : value.isFinite = true) : value.isReadable = true := by
  refine hkeyed.allScalars_imp (fun leaf hleaf => ?_) h
  cases leaf with
  | float x =>
      cases x with
      | nan => cases hleaf
      | infinite negative => cases hleaf
      | finite negative magnitude => rfl
  | bool b => rfl
  | int n => rfl
  | string s => rfl

open Literal in
/-- The value of a text is restorable, unless a float in it is not finite.  Then an improper
word stands in the text. -/
theorem Literal.ValueText.restorable_or {text : List Char} {value : Value}
    (h : ValueText defaultLimit text value) :
    value.Restorable ∨ value.isFinite = false ∧ ∃ word, StandsIn word text ∧ Improper word := by
  cases hfinite : value.isFinite with
  | true =>
      have hliteral := (parse_write h.keyed (h.keyed.isReadable hfinite)).mpr h.nesting_le
      have hequal := Value.equal_self h.keyed (h.keyed.isNaNFree hfinite)
      exact .inl ⟨hfinite, hliteral, hequal, Value.representable_toJson h.keyed hfinite⟩
  | false =>
      obtain ⟨word, hword, hleaf⟩ := h.exists_word (fun _ => rfl) hfinite
      refine .inr ⟨rfl, word, hword, improper_iff.mpr ?_⟩
      generalize bareScalar word = leaf at hleaf ⊢
      cases leaf with
      | float x => exact ⟨x, rfl, hleaf⟩
      | bool b => cases hleaf
      | int n => cases hleaf
      | string s => cases hleaf

/-- The value of a literal and the patterns of a path can be written back, as long as no
improper word stands in the text.  A text that is a bare word is read as a float that is
not finite exactly when the word is improper. -/
theorem restorable_or_improper (text : String) :
    (∀ value, Literal.parse text = .ok value →
        value.Restorable
          ∨ value.isFinite = false
            ∧ ∃ word, Literal.StandsIn word text.toList ∧ Literal.Improper word)
      ∧ (∀ path, Path.parse text = .ok path →
        ∀ selector ∈ path.selectors, ∀ pattern ∈ selector.pattern?,
          (Value.compound pattern).Restorable
            ∨ (Value.compound pattern).isFinite = false
              ∧ ∃ word, Literal.StandsIn word text.toList ∧ Literal.Improper word)
      ∧ (Literal.BareWord text.toList → (Literal.Improper text.toList
          ↔ ∃ x, Literal.parse text = .ok (.scalar (.float x)) ∧ x.isFinite = false)) := by
  refine ⟨fun value h => ?_, fun path h selector hselector pattern hpattern => ?_, fun hword => ?_⟩
  · obtain ⟨before, inner, after, htext, hbefore, hafter, hinner⟩ := Literal.parse_eq_ok.mp h
    have hinside := Literal.inside_of_gaps hbefore hafter inner
    rw [htext]
    refine hinner.restorable_or.imp_right (And.imp_right ?_)
    rintro ⟨word, hword, himproper⟩
    exact ⟨word, ⟨hword.1, hword.2.trans hinside⟩, himproper⟩
  · obtain ⟨filter, hfilter, hstands⟩ :=
      Path.filterIn_of_parse h selector hselector pattern hpattern
    refine hfilter.valueText.restorable_or.imp_right (And.imp_right ?_)
    rintro ⟨word, hword, himproper⟩
    exact ⟨word, hword.of_infix hfilter hstands, himproper⟩
  · have hread := Literal.parse_word hword
    rw [String.ofList_toList] at hread
    rw [Literal.improper_iff, hread]
    simp only [Except.ok.injEq, Value.scalar.injEq]

/-- A list with an infinity was read, so an improper word stands in the text. -/
theorem restorable_or_improper_signed :
    Literal.parse "[1,-inf]" = .ok (.list [.scalar (.int 1), .scalar (.float (.infinite true))])
      ∧ ∃ word, Literal.StandsIn word "[1,-inf]".toList ∧ Literal.Improper word := by
  have hparse : Literal.parse "[1,-inf]"
      = .ok (.list [.scalar (.int 1), .scalar (.float (.infinite true))]) := by cbv
  obtain hrestorable | ⟨-, hword⟩ := (restorable_or_improper "[1,-inf]").1 _ hparse
  · exact absurd hrestorable.finite Bool.false_ne_true
  · exact ⟨hparse, hword⟩

/-- A word that starts with a letter is a text, but not with a sign before it.  The number
that is missing then is written without the sign, so it comes back as a text, and as a null
in a document.  A numeral that is too great and a word in a filter are floats as well. -/
theorem improper_words_are_read :
    Literal.parse "+NaN" = .ok (.scalar (.float .nan))
      ∧ (Value.scalar (.float .nan)).isFinite = false
      ∧ (Value.scalar (.float .nan)).literal = "NaN"
      ∧ Literal.parse "NaN" = .ok (.scalar (.string "NaN"))
      ∧ (Value.scalar (.float .nan)).toJson = .null
      ∧ Literal.parse "1e400" = .ok (.scalar (.float (.infinite false)))
      ∧ Path.parse "a{b:-inf}" = .ok ⟨"a{b:-inf}",
        [⟨.childMatching "a" [("b", .scalar (.float (.infinite true)))], 9⟩]⟩ := by
  have hmissing : Literal.bareScalar "+NaN".toList = .float .nan := by decide +kernel
  have htext : Literal.bareScalar "NaN".toList = .string "NaN" := by decide +kernel
  have hgreat : Literal.bareScalar "1e400".toList = .float (.infinite false) := by decide +kernel
  have hread : ∀ {word : List Char} {leaf : Scalar}, Literal.bareScalar word = leaf →
      Literal.BareWord word → Literal.parse (String.ofList word) = .ok (.scalar leaf) :=
    fun hleaf hword => hleaf ▸ Literal.parse_word hword
  refine ⟨hread hmissing ?_, rfl, rfl, hread htext ?_, rfl, hread hgreat ?_, by cbv⟩
  · exact Literal.bareWord_of_all (by decide) (by decide)
  · exact Literal.bareWord_of_all (by decide) (by decide)
  · exact Literal.bareWord_of_all (by decide) (by decide)

end TreeQuery
