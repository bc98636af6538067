import TreeQuery.Number.Layout
import TreeQuery.Proofs.Number.Numeral
import TreeQuery.Proofs.Number.Shortest

/-!
# Floats read back

Every text a layout writes for a float is read as that float (`float?_write`), for
whatever decisions the layout makes.

`DecimalText` is the form of what is written for a magnitude: a run of digits with a
point or a power of ten after it.  Reading such a text gives the digits as one number,
with the power lessened by the places after the point.  Positional text of a great
number has zeros that the shortest digits do not have, so it stands for the same number
with another power of ten.
-/

namespace TreeQuery

namespace Numeral

/-! ## The form of decimal text -/

/-- Digits with a point among them or a power of ten after them. -/
inductive DecimalText : List Char → Decimal → Prop where
  | point {whole fraction rest : List Char} {digits : Nat} {power : Int} : whole ≠ [] →
      DigitsText (whole ++ fraction) digits → PowerText rest power →
      DecimalText (whole ++ '.' :: (fraction ++ rest)) ⟨digits, power - fraction.length⟩
  | power {whole text : List Char} {digits : Nat} {power : Int} :
      DigitsText whole digits → IntegerText text power →
      DecimalText (whole ++ 'e' :: text) ⟨digits, power⟩

/-- It is a numeral without a sign. -/
theorem DecimalText.unsigned {text : List Char} {d : Decimal} (h : DecimalText text d) :
    UnsignedText text d := by
  cases h with
  | point _ hdigits hpower => exact .point hdigits hpower
  | power hdigits hpower => exact .whole hdigits (.power (.inl rfl) hpower)

/-! ## The form of what is written -/

theorem digitsText_ofNat (n : Nat) : DigitsText (ofNat n) n :=
  natural?_eq_some.mp (natural?_ofNat n)

/-- What is written for an integer is an integer, also after a plus sign. -/
theorem integerText_ofInt (plusSign : Bool) (n : Int) :
    IntegerText ((if 0 ≤ n ∧ plusSign then ['+'] else []) ++ ofInt n) n := by
  cases n with
  | ofNat n =>
      have hnonneg : 0 ≤ Int.ofNat n := Int.natCast_nonneg n
      cases plusSign with
      | true =>
          rw [if_pos ⟨hnonneg, rfl⟩]
          exact .plus (digitsText_ofNat n)
      | false =>
          rw [if_neg (by simp)]
          exact .unsigned (digitsText_ofNat n)
  | negSucc n =>
      rw [if_neg (by simp), List.nil_append, Int.negSucc_eq]
      exact .minus (digitsText_ofNat (n + 1))

/-- Zeros after the digits are powers of ten. -/
theorem DigitsText.append_zeros {digits : List Char} {n : Nat} (h : DigitsText digits n)
    (zeros : Nat) : DigitsText (digits ++ List.replicate zeros '0') (n * 10 ^ zeros) := by
  obtain ⟨hne, hall, rfl⟩ := h
  refine ⟨by simp [hne], fun c hc => ?_, ?_⟩
  · rcases List.mem_append.mp hc with hc | hc
    · exact hall c hc
    · rw [(List.mem_replicate.mp hc).2]
      decide
  · rw [Nat.ofDigitChars_append, Nat.ofDigitChars_replicate_zero, Nat.mul_comm]

/-- Zeros before the digits do not count. -/
theorem DigitsText.zeros_append {digits : List Char} {n : Nat} (h : DigitsText digits n)
    (zeros : Nat) : DigitsText (List.replicate zeros '0' ++ digits) n := by
  obtain ⟨hne, hall, rfl⟩ := h
  refine ⟨by simp [hne], fun c hc => ?_, ?_⟩
  · rcases List.mem_append.mp hc with hc | hc
    · rw [(List.mem_replicate.mp hc).2]
      decide
    · exact hall c hc
  · rw [Nat.ofDigitChars_append, Nat.ofDigitChars_replicate_zero, Nat.mul_zero]

/-- Decimal text starts with a digit. -/
theorem DecimalText.head {text : List Char} {d : Decimal} (h : DecimalText text d) :
    ∃ c rest, text = c :: rest ∧ c.isDigit = true := by
  cases h with
  | @point whole fraction rest digits power hwhole hdigits =>
      obtain ⟨c, tail, rfl⟩ := List.exists_cons_of_ne_nil hwhole
      exact ⟨c, _, rfl, hdigits.2.1 c (by simp)⟩
  | power hdigits =>
      obtain ⟨c, tail, rfl⟩ := List.exists_cons_of_ne_nil hdigits.1
      exact ⟨c, _, rfl, hdigits.2.1 c (by simp)⟩

/-- Digits with a point among them, and no power of ten. -/
theorem DecimalText.of_point {whole fraction : List Char} {digits : Nat} {exponent : Int}
    (hwhole : whole ≠ []) (h : DigitsText (whole ++ fraction) digits)
    (hexponent : exponent = -fraction.length) :
    DecimalText (whole ++ '.' :: fraction) ⟨digits, exponent⟩ := by
  have hpoint := DecimalText.point hwhole h .none
  rw [List.append_nil, Int.zero_sub, ← hexponent] at hpoint
  exact hpoint

end Numeral

namespace FloatLayout

open Numeral

theorem decimalText_positional {d : Decimal} (h : d.exponent < 0) :
    DecimalText (positional (ofNat d.digits) d.exponent) d := by
  have hdigits := digitsText_ofNat d.digits
  generalize ofNat d.digits = digits at hdigits ⊢
  unfold positional
  dsimp only
  rw [if_neg (by omega)]
  split
  · next hplaces =>
    refine .of_point (fun hnil => ?_) (by rwa [List.take_append_drop]) ?_
    · have hlength := congrArg List.length hnil
      rw [List.length_take, List.length_nil] at hlength
      omega
    · rw [List.length_drop]
      omega
  · have hzeros := hdigits.zeros_append ((-d.exponent).toNat - digits.length + 1)
    refine @DecimalText.of_point ['0'] _ _ _ (List.cons_ne_nil _ _) hzeros ?_
    rw [List.length_append, List.length_replicate]
    omega

/-- Zeros take the place of the power of ten, and one more stands after the point. -/
theorem decimalText_positional_of_nonneg {d : Decimal} (h : 0 ≤ d.exponent) :
    DecimalText (positional (ofNat d.digits) d.exponent)
      ⟨d.digits * 10 ^ (d.exponent.toNat + 1), -1⟩ := by
  have hdigits := (digitsText_ofNat d.digits).append_zeros (d.exponent.toNat + 1)
  rw [positional, if_pos h]
  refine .of_point (by simp [(digitsText_ofNat d.digits).1]) ?_ rfl
  rwa [List.append_assoc, ← List.replicate_succ']

theorem decimalText_scientific (plusSign : Bool) (d : Decimal) :
    DecimalText (scientific plusSign (ofNat d.digits) (d.exponent + (ofNat d.digits).length - 1))
      d := by
  have hdigits := digitsText_ofNat d.digits
  generalize ofNat d.digits = digits at hdigits ⊢
  generalize hpower : d.exponent + digits.length - 1 = power
  have htext := integerText_ofInt plusSign power
  cases digits with
  | nil => exact absurd rfl hdigits.1
  | cons first rest =>
      cases rest with
      | nil =>
          obtain rfl : power = d.exponent := by
            rw [List.length_singleton] at hpower
            omega
          exact .power hdigits htext
      | cons next rest =>
          have hpoint := @DecimalText.point [first] (next :: rest) _ _ _ (List.cons_ne_nil _ _)
            hdigits (.power (.inl rfl) htext)
          have hexponent : power - (next :: rest).length = d.exponent := by
            rw [← hpower, List.length_cons]
            omega
          rw [hexponent] at hpoint
          exact hpoint

/-- What is written for a decimal number in the interval stands for one in the
interval. -/
theorem decimalText_writeDecimal (layout : FloatLayout) {m : Magnitude} {d : Decimal}
    (h : m.Covers d) : ∃ d', m.Covers d' ∧ DecimalText (layout.writeDecimal d) d' := by
  unfold writeDecimal
  dsimp only
  split
  · by_cases hexponent : 0 ≤ d.exponent
    · exact ⟨_, h.withPoint hexponent, decimalText_positional_of_nonneg hexponent⟩
    · exact ⟨d, h, decimalText_positional (by omega)⟩
  · exact ⟨d, h, decimalText_scientific layout.plusSign d⟩

/-- What is written for a magnitude is read as that. -/
theorem decimalText_writeMagnitude (layout : FloatLayout) (m : Magnitude) :
    ∃ d, DecimalText (layout.writeMagnitude m) d
      ∧ ∀ negative, Binary64.ofDecimal negative d.digits d.exponent = .finite negative m := by
  unfold writeMagnitude
  split
  · next hzero =>
    have hpoint : DecimalText ['0', '.', '0'] ⟨0, -1⟩ :=
      @DecimalText.of_point ['0'] ['0'] 0 _ (List.cons_ne_nil _ _) ⟨by simp, by simp, rfl⟩ rfl
    have hm : m = .zero := by
      cases m
      cases hzero
      rfl
    refine ⟨_, hpoint, fun negative => ?_⟩
    rw [hm, Binary64.ofDecimal]
    exact if_pos (.inl rfl)
  · next hrank =>
    obtain ⟨d, hcovers, htext⟩ :=
      layout.decimalText_writeDecimal (m.covers_shortest layout.tie)
    exact ⟨d, htext, fun negative =>
      Magnitude.ofDecimal_of_covers negative (Nat.pos_of_ne_zero hrank) hcovers⟩

/-- Every text a layout writes for a float is read as that float. -/
theorem float?_write (layout : FloatLayout) (x : Binary64) :
    float? (layout.write x) = some x := by
  cases x with
  | nan => rfl
  | infinite negative => cases negative <;> rfl
  | finite negative m =>
      obtain ⟨d, htext, hread⟩ := layout.decimalText_writeMagnitude m
      have hsign : SignText (if negative then ['-'] else []) negative := by
        cases negative with
        | true => exact .minus
        | false => exact .none
      rw [write, ← hread]
      exact float?_eq_some.mpr (.unsigned hsign htext.unsigned)

end FloatLayout

end TreeQuery
