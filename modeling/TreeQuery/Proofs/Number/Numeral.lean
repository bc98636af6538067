import Mathlib.Data.List.TakeWhile
import TreeQuery.Number.Shortest
import TreeQuery.Proofs.Token

/-!
# The numerals of floats

The texts that are read as floats, and the floats they stand for:

    number   := sign? (word | unsigned)
    word     := 'inf' | 'infinity' | 'nan', in any case of letters
    unsigned := digits power? | digits? '.' digits? power?, with at least one digit
    power    := ('e' | 'E') integer

The digits are one number, whether a point is among them or not.  The places after the
point lessen the power of ten.
-/

namespace TreeQuery.Numeral

/-! ## Signs -/

/-- `sign?`, with whether it is a minus sign. -/
inductive SignText : List Char → Bool → Prop where
  | none : SignText [] false
  | plus : SignText ['+'] false
  | minus : SignText ['-'] true

/-- A text is its sign and what follows it. -/
theorem signText_splitSign {text body : List Char} {negative : Bool}
    (h : splitSign text = (negative, body)) :
    ∃ sign, SignText sign negative ∧ text = sign ++ body := by
  unfold splitSign at h
  split at h
  · obtain ⟨rfl, rfl⟩ := Prod.mk.inj h
    exact ⟨['-'], .minus, rfl⟩
  · obtain ⟨rfl, rfl⟩ := Prod.mk.inj h
    exact ⟨['+'], .plus, rfl⟩
  · obtain ⟨rfl, rfl⟩ := Prod.mk.inj h
    exact ⟨[], .none, rfl⟩

/-- A sign is split off where no other one follows it. -/
theorem SignText.splitSign {sign : List Char} {negative : Bool} (h : SignText sign negative)
    {c : Char} {rest : List Char} (hc : c ≠ '-' ∧ c ≠ '+') :
    splitSign (sign ++ c :: rest) = (negative, c :: rest) := by
  cases h with
  | none =>
      rw [List.nil_append]
      unfold Numeral.splitSign
      split
      · next heq => exact absurd (List.cons.inj heq).1 hc.1
      · next heq => exact absurd (List.cons.inj heq).1 hc.2
      · rfl
  | plus => rfl
  | minus => rfl

/-! ## Powers of ten -/

/-- `power?` -/
inductive PowerText : List Char → Int → Prop where
  | none : PowerText [] 0
  | power {c : Char} {text : List Char} {power : Int} : c = 'e' ∨ c = 'E' →
      IntegerText text power → PowerText (c :: text) power

theorem power?_eq_some {text : List Char} {power : Int} :
    power? text = some power ↔ PowerText text power := by
  constructor
  · intro h
    cases text with
    | nil =>
        obtain rfl := Option.some.inj h
        exact .none
    | cons c rest =>
        rw [power?] at h
        split at h
        · next hc => exact .power hc (integer?_eq_some.mp h)
        · cases h
  · intro h
    cases h with
    | none => rfl
    | power hc htext => rw [power?, if_pos hc, integer?_eq_some.mpr htext]

/-- A power of ten starts with its letter. -/
theorem PowerText.head {text : List Char} {power : Int} (h : PowerText text power) :
    text = [] ∨ ∃ c rest, text = c :: rest ∧ c.isDigit = false ∧ c ≠ '.' := by
  cases h with
  | none => exact .inl rfl
  | @power c text power hc =>
      refine .inr ⟨c, text, rfl, ?_⟩
      obtain rfl | rfl := hc
      · decide
      · decide

theorem PowerText.stops_isDigit {text : List Char} {power : Int} (h : PowerText text power) :
    Stops Char.isDigit text := by
  obtain rfl | ⟨c, rest, rfl, hc, -⟩ := h.head
  · exact stops_nil _
  · exact stops_cons.mpr hc

/-! ## Numbers without a sign -/

/-- `unsigned := digits power? | digits? '.' digits? power?` -/
inductive UnsignedText : List Char → Decimal → Prop where
  | whole {whole rest : List Char} {digits : Nat} {power : Int} :
      DigitsText whole digits → PowerText rest power →
      UnsignedText (whole ++ rest) ⟨digits, power⟩
  | point {whole fraction rest : List Char} {digits : Nat} {power : Int} :
      DigitsText (whole ++ fraction) digits → PowerText rest power →
      UnsignedText (whole ++ '.' :: (fraction ++ rest)) ⟨digits, power - fraction.length⟩

theorem UnsignedText.decimal?_eq {text : List Char} {d : Decimal} (h : UnsignedText text d)
    (negative : Bool) : decimal? negative text = some (.ofDecimal negative d.digits d.exponent) := by
  cases h with
  | @whole whole rest digits power hdigits hpower =>
      obtain ⟨hne, hall, rfl⟩ := hdigits
      obtain ⟨htake, hdrop⟩ := takeWhile_append_of_stops hall hpower.stops_isDigit
      unfold decimal?
      simp only [htake, hdrop]
      split
      · -- The first character of a power of ten is no point.
        obtain hnil | ⟨c, others, hcons, -, hc⟩ := hpower.head
        · cases hnil
        · exact absurd (List.cons.inj hcons).1.symm hc
      · simp [hne, power?_eq_some.mpr hpower]
  | @point whole fraction rest digits power hdigits hpower =>
      obtain ⟨hne, hall, rfl⟩ := hdigits
      obtain ⟨htake, hdrop⟩ := takeWhile_append_of_stops
        (fun c hc => hall c (List.mem_append_left _ hc))
        (stops_cons.mpr (by decide) : Stops Char.isDigit ('.' :: (fraction ++ rest)))
      obtain ⟨htake', hdrop'⟩ := takeWhile_append_of_stops
        (fun c hc => hall c (List.mem_append_right _ hc)) hpower.stops_isDigit
      unfold decimal?
      simp only [htake, hdrop, htake', hdrop', if_neg hne, power?_eq_some.mpr hpower,
        Option.map_some]

/-- What is read without a sign is a number of that form. -/
theorem decimal?_eq_some {negative : Bool} {text : List Char} {x : Binary64} :
    decimal? negative text = some x
      ↔ ∃ d, UnsignedText text d ∧ x = .ofDecimal negative d.digits d.exponent := by
  constructor
  · intro h
    have htext := text.takeWhile_append_dropWhile (p := Char.isDigit)
    have hwhole : ∀ c ∈ text.takeWhile Char.isDigit, c.isDigit = true := fun c =>
      List.mem_takeWhile_imp
    unfold decimal? at h
    generalize text.takeWhile Char.isDigit = whole at *
    generalize text.dropWhile Char.isDigit = after at *
    subst htext
    dsimp only at h
    split at h
    · next _ rest =>
      dsimp only at h
      have hsplit := rest.takeWhile_append_dropWhile (p := Char.isDigit)
      have hfraction : ∀ c ∈ rest.takeWhile Char.isDigit, c.isDigit = true := fun c =>
        List.mem_takeWhile_imp
      generalize rest.takeWhile Char.isDigit = fraction at *
      generalize rest.dropWhile Char.isDigit = others at *
      subst hsplit
      obtain ⟨hne, h⟩ := Option.ite_none_left_eq_some.mp h
      obtain ⟨power, hpower, rfl⟩ := Option.map_eq_some_iff.mp h
      have hdigits : DigitsText (whole ++ fraction) (Nat.ofDigitChars 10 (whole ++ fraction) 0) :=
        ⟨hne, List.forall_mem_append.mpr ⟨hwhole, hfraction⟩, rfl⟩
      exact ⟨_, .point hdigits (power?_eq_some.mp hpower), rfl⟩
    · dsimp only at h
      rw [List.append_nil] at h
      obtain ⟨hne, h⟩ := Option.ite_none_left_eq_some.mp h
      obtain ⟨power, hpower, rfl⟩ := Option.map_eq_some_iff.mp h
      refine ⟨_, .whole ⟨hne, hwhole, rfl⟩ (power?_eq_some.mp hpower), ?_⟩
      simp
  · rintro ⟨d, htext, rfl⟩
    exact htext.decimal?_eq negative

/-- It starts with a digit or a point. -/
theorem UnsignedText.head {text : List Char} {d : Decimal} (h : UnsignedText text d) :
    ∃ c rest, text = c :: rest ∧ (c.isDigit = true ∨ c = '.') := by
  cases h with
  | @whole whole rest digits power hdigits =>
      obtain ⟨c, others, rfl⟩ := List.exists_cons_of_ne_nil hdigits.1
      exact ⟨c, _, rfl, .inl (hdigits.2.1 c (List.mem_cons_self ..))⟩
  | @point whole fraction rest digits power hdigits =>
      cases whole with
      | nil => exact ⟨'.', _, rfl, .inr rfl⟩
      | cons c others => exact ⟨c, _, rfl, .inl (hdigits.2.1 c (List.mem_cons_self ..))⟩

/-! ## Words -/

/-- The text is the word in any case of letters. -/
def IsWord (word : String) (text : List Char) : Prop := String.ofList (text.map Char.toLower) = word

/-- One of the words for what is not finite. -/
def IsSpecial (text : List Char) : Prop :=
  IsWord "inf" text ∨ IsWord "infinity" text ∨ IsWord "nan" text

theorem toLower_of_isDigit {c : Char} (h : c.isDigit = true) : c.toLower = c := by
  simp only [Char.isDigit, Bool.and_eq_true, decide_eq_true_eq, UInt32.le_iff_toNat_le] at h
  refine dif_neg fun hupper => ?_
  have hle : 65 ≤ c.val.toNat := hupper.1
  have hge : c.val.toNat ≤ 57 := h.2
  omega

theorem IsWord.head {word : String} {text : List Char} (h : IsWord word text) {first : Char}
    {others : List Char} (hword : word.toList = first :: others) :
    ∃ c rest, text = c :: rest ∧ c.toLower = first := by
  have hchars : text.map Char.toLower = first :: others := by
    rw [← hword, ← h, String.toList_ofList]
  obtain ⟨c, rest, rfl, hc, -⟩ := List.map_eq_cons_iff.mp hchars
  exact ⟨c, rest, rfl, hc⟩

/-- Such a word starts with a letter, which no number does. -/
theorem IsSpecial.head {text : List Char} (h : IsSpecial text) :
    ∃ c rest, text = c :: rest ∧ c.isDigit = false ∧ c ≠ '.' ∧ c ≠ '-' ∧ c ≠ '+' := by
  have hletter : ∀ {c first : Char}, c.toLower = first → first = 'i' ∨ first = 'n' →
      c.isDigit = false ∧ c ≠ '.' ∧ c ≠ '-' ∧ c ≠ '+' := by
    rintro c first rfl hfirst
    refine ⟨?_, ?_, ?_, ?_⟩
    · refine Bool.eq_false_iff.mpr fun hdigit => ?_
      rw [toLower_of_isDigit hdigit] at hfirst
      obtain rfl | rfl := hfirst <;> cases hdigit
    · rintro rfl
      exact absurd hfirst (by decide)
    · rintro rfl
      exact absurd hfirst (by decide)
    · rintro rfl
      exact absurd hfirst (by decide)
  obtain h | h | h := h
  · obtain ⟨c, rest, htext, hc⟩ := h.head rfl
    exact ⟨c, rest, htext, hletter hc (.inl rfl)⟩
  · obtain ⟨c, rest, htext, hc⟩ := h.head rfl
    exact ⟨c, rest, htext, hletter hc (.inl rfl)⟩
  · obtain ⟨c, rest, htext, hc⟩ := h.head rfl
    exact ⟨c, rest, htext, hletter hc (.inr rfl)⟩

/-! ## Numbers -/

/-- `number := sign? (word | unsigned)`, with the float that is read. -/
inductive NumberText : List Char → Binary64 → Prop where
  | infinite {sign word : List Char} {negative : Bool} : SignText sign negative →
      IsWord "inf" word ∨ IsWord "infinity" word → NumberText (sign ++ word) (.infinite negative)
  | missing {sign word : List Char} {negative : Bool} : SignText sign negative →
      IsWord "nan" word → NumberText (sign ++ word) .nan
  | unsigned {sign text : List Char} {negative : Bool} {d : Decimal} : SignText sign negative →
      UnsignedText text d → NumberText (sign ++ text) (.ofDecimal negative d.digits d.exponent)

/-- The floats that are read are those of the grammar. -/
theorem float?_eq_some {text : List Char} {x : Binary64} :
    float? text = some x ↔ NumberText text x := by
  constructor
  · intro h
    unfold float? at h
    split at h
    next negative body hsplit =>
      obtain ⟨sign, hsign, rfl⟩ := signText_splitSign hsplit
      dsimp only at h
      split at h
      · next hword =>
        obtain rfl := Option.some.inj h
        exact .infinite hsign hword
      · split at h
        · next hword =>
          obtain rfl := Option.some.inj h
          exact .missing hsign hword
        · obtain ⟨d, hbody, rfl⟩ := decimal?_eq_some.mp h
          exact .unsigned hsign hbody
  · intro h
    unfold float?
    cases h with
    | infinite hsign hword =>
        obtain ⟨c, rest, rfl, -, -, hminus, hplus⟩ :=
          IsSpecial.head (hword.imp_right .inl)
        rw [hsign.splitSign ⟨hminus, hplus⟩]
        exact if_pos hword
    | missing hsign hword =>
        obtain ⟨c, rest, rfl, -, -, hminus, hplus⟩ := IsSpecial.head (.inr (.inr hword))
        rw [hsign.splitSign ⟨hminus, hplus⟩]
        dsimp only
        rw [show String.ofList ((c :: rest).map Char.toLower) = "nan" from hword]
        rfl
    | unsigned hsign hunsigned =>
        obtain ⟨c, rest, rfl, hc⟩ := hunsigned.head
        have hnot : ¬IsSpecial (c :: rest) := by
          intro hspecial
          obtain ⟨c', rest', heq, hdigit, hpoint, -⟩ := hspecial.head
          obtain ⟨rfl, -⟩ := List.cons.inj heq
          simp [hdigit, hpoint] at hc
        have hsigns : c ≠ '-' ∧ c ≠ '+' := by
          constructor
          · rintro rfl
            exact absurd hc (by decide)
          · rintro rfl
            exact absurd hc (by decide)
        rw [hsign.splitSign hsigns]
        exact (if_neg fun hword => hnot (hword.imp_right .inl)).trans
          ((if_neg fun hword => hnot (.inr (.inr hword))).trans (hunsigned.decimal?_eq _))

/-- An integer is also the numeral of a float. -/
theorem IntegerText.numberText {text : List Char} {value : Int} (h : IntegerText text value) :
    ∃ negative, NumberText text (.ofDecimal negative value.natAbs 0) := by
  cases h with
  | unsigned hdigits =>
      have hnumber := NumberText.unsigned .none (.whole hdigits .none)
      exact ⟨false, by simpa using hnumber⟩
  | plus hdigits =>
      have hnumber := NumberText.unsigned .plus (.whole hdigits .none)
      exact ⟨false, by simpa using hnumber⟩
  | minus hdigits =>
      have hnumber := NumberText.unsigned .minus (.whole hdigits .none)
      exact ⟨true, by simpa using hnumber⟩

end TreeQuery.Numeral
