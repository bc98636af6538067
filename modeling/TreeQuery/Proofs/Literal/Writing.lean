import TreeQuery.Literal.Writer
import TreeQuery.Proofs.Literal.Denotation
import TreeQuery.Proofs.Literal.Values
import TreeQuery.Proofs.Number.Layout

/-!
# What is written is a literal

The grammar derives the text that is written for a value, as a text of that value
(`valueText_write`).  The nesting it needs is that of the containers in the value,
`Value.nesting`.

Two things are asked of the value.  The keys of a compound are distinct, which every
reader and every edit sees to.  And no float is missing or positive infinity, since
their words do not start as numbers do and are read as texts (`Value.isReadable`).
-/

namespace TreeQuery

/-! ## Values that are read back -/

/-- The word for the leaf is not read as a text instead. -/
def Scalar.isReadable : Scalar → Bool
  | .float .nan => false
  | .float (.infinite false) => false
  | _ => true

/-- The same for all leaves of the tree. -/
def Value.isReadable (value : Value) : Bool := value.allScalars Scalar.isReadable

namespace Literal

open Reader

/-! ## Keys and texts -/

theorem quotedRest_write (text : List Char) :
    QuotedRest '"' (text.flatMap writeQuotedChar ++ ['"']) text := by
  induction text with
  | nil => exact .close
  | cons c text ih =>
      rw [List.flatMap_cons, List.append_assoc, writeQuotedChar]
      split
      · exact .escaped ih
      · next hplain =>
        obtain ⟨hquote, hescape⟩ := not_or.mp hplain
        exact .plain hescape hquote ih

theorem quotedText_write (text : String) : QuotedText (writeQuoted text) text := by
  have h := QuotedText.mk (by decide) (quotedRest_write text.toList)
  rwa [String.ofList_toList] at h

theorem bareWord_of_all {word : List Char} (hne : word ≠ []) (hall : word.all isBare = true) :
    BareWord word :=
  ⟨hne, List.all_eq_true.mp hall⟩

theorem keyText_write (key : String) : KeyText (writeKey key) key := by
  unfold writeKey
  split
  · next hbare =>
    obtain ⟨hne, hall⟩ := hbare
    have h := KeyText.bare (bareWord_of_all (by simpa using hne) hall)
    rwa [String.ofList_toList] at h
  · exact .quoted (quotedText_write key)

/-! ## Numbers -/

theorem isBare_of_isDigit {c : Char} (h : c.isDigit = true) : isBare c = true := by
  simp [isBare, Char.isAlphanum, h]

theorem isBare_of_integerText {text : List Char} {value : Int}
    (h : Numeral.IntegerText text value) : ∀ c ∈ text, isBare c = true := by
  intro c hc
  obtain hdigit | rfl | rfl := h.isDigit_or_sign c hc
  · exact isBare_of_isDigit hdigit
  · decide
  · decide

theorem isBare_of_powerText {text : List Char} {power : Int} (h : Numeral.PowerText text power) :
    ∀ c ∈ text, isBare c = true := by
  cases h with
  | none => exact nofun
  | power hc hpower =>
      refine List.forall_mem_cons.mpr ⟨?_, isBare_of_integerText hpower⟩
      obtain rfl | rfl := hc <;> decide

theorem isBare_of_decimalText {text : List Char} {d : Decimal} (h : Numeral.DecimalText text d) :
    ∀ c ∈ text, isBare c = true := by
  cases h with
  | point _ hdigits hpower =>
      have hall := List.forall_mem_append.mp fun c hc => isBare_of_isDigit (hdigits.2.1 c hc)
      refine List.forall_mem_append.mpr ⟨hall.1, List.forall_mem_cons.mpr ⟨by decide, ?_⟩⟩
      exact List.forall_mem_append.mpr ⟨hall.2, isBare_of_powerText hpower⟩
  | power hdigits hpower =>
      refine List.forall_mem_append.mpr ⟨fun c hc => isBare_of_isDigit (hdigits.2.1 c hc), ?_⟩
      exact isBare_of_powerText (.power (.inl rfl) hpower)

/-- A character that is no digit and no sign shows that a word is not an integer. -/
theorem noInteger_of_mem {word : List Char} {c : Char} (hc : c ∈ word)
    (hdigit : c.isDigit = false) (hsign : c ≠ '-' ∧ c ≠ '+') : NoInteger word := by
  intro n hint
  have hchar := hint.isDigit_or_sign c hc
  simp [hdigit, hsign] at hchar

/-- The point or the power of ten is such a character. -/
theorem noInteger_of_decimalText {text : List Char} {d : Decimal}
    (h : Numeral.DecimalText text d) (sign : List Char) : NoInteger (sign ++ text) := by
  cases h with
  | point => exact @noInteger_of_mem _ '.' (by simp) (by decide) (by decide)
  | power => exact @noInteger_of_mem _ 'e' (by simp) (by decide) (by decide)

/-- The text of a readable float is a bare word, and stands for that float. -/
theorem wordText_writeFloat {x : Binary64} (h : (Scalar.float x).isReadable = true) :
    BareWord (floatLayout.write x) ∧ WordText (floatLayout.write x) (.float x) := by
  have hread := floatLayout.float?_write x
  cases x with
  | nan => cases h
  | infinite negative =>
      cases negative with
      | false => cases h
      | true =>
          have hint : NoInteger ['-', 'i', 'n', 'f'] :=
            @noInteger_of_mem _ 'i' (by simp) (by decide) (by decide)
          exact ⟨bareWord_of_all (by decide) (by decide), .float hint ⟨⟨'-', rfl, by decide⟩, hread⟩⟩
  | finite negative m =>
      obtain ⟨d, htext, -⟩ := floatLayout.decimalText_writeMagnitude m
      have hint := noInteger_of_decimalText htext (if negative then ['-'] else [])
      have hsign : ∀ c ∈ (if negative then ['-'] else []), isBare c = true := by
        cases negative <;> simp [isBare]
      have hbare := List.forall_mem_append.mpr ⟨hsign, isBare_of_decimalText htext⟩
      obtain ⟨first, rest, heq, hfirst⟩ := htext.head
      have hstart : ∃ c ∈ (floatLayout.write (.finite negative m)).head?,
          startsNumber c = true := by
        rw [FloatLayout.write, heq]
        cases negative with
        | false => exact ⟨first, rfl, by simp [startsNumber, hfirst]⟩
        | true => exact ⟨'-', rfl, by decide⟩
      refine ⟨⟨?_, hbare⟩, .float hint ⟨hstart, hread⟩⟩
      simp [FloatLayout.write, heq]

/-- What is written for a leaf is a text in quotes or a word, and stands for that
leaf. -/
theorem valueOf_writeScalar {compound : List Char → Compound → Prop}
    {list : List Char → List Value → Prop} {s : Scalar} (h : s.isReadable = true) :
    ValueOf compound list (writeScalar s) (.scalar s) := by
  have hword : BareWord (writeScalar s) → WordText (writeScalar s) s →
      ValueOf compound list (writeScalar s) (.scalar s) := by
    intro hbare hleaf
    have hvalue : ValueOf compound list _ _ := .bare hbare
    rwa [bareScalar_eq_iff.mpr hleaf] at hvalue
  cases s with
  | bool b =>
      cases b with
      | true => exact hword (bareWord_of_all (by decide) (by decide)) .yes
      | false => exact hword (bareWord_of_all (by decide) (by decide)) .no
  | int n =>
      have hint : Numeral.IntegerText (Numeral.ofInt n.toInt) n.toInt := by
        simpa using Numeral.integerText_ofInt false n.toInt
      exact hword ⟨hint.ne_nil, isBare_of_integerText hint⟩ (.int hint)
  | float x => exact hword (wordText_writeFloat h).1 (wordText_writeFloat h).2
  | string s => exact .quoted (quotedText_write s)

/-! ## Parts with commas between them -/

theorem writeItems_eq (items : List Value) :
    writeItems items = [','].intercalate (items.map write) := by
  induction items with
  | nil => simp [writeItems]
  | cons item rest ih =>
      cases rest with
      | nil => simp [writeItems]
      | cons next rest => simp [writeItems, ih]

/-- An entry. -/
def writeEntry (entry : String × Value) : List Char := writeKey entry.1 ++ ':' :: write entry.2

theorem writeEntries_eq (entries : List (String × Value)) :
    writeEntries entries = [','].intercalate (entries.map writeEntry) := by
  induction entries with
  | nil => simp [writeEntries]
  | cons entry rest ih =>
      cases rest with
      | nil => simp [writeEntries, writeEntry]
      | cons next rest => simp [writeEntries, writeEntry, ih]

theorem partsText_intercalate {α : Type} {part : List Char → α → Prop} {text : α → List Char}
    {as : List α} (hne : as ≠ []) (h : ∀ a ∈ as, part (text a) a) :
    PartsText part ([','].intercalate (as.map text)) as := by
  induction as with
  | nil => exact absurd rfl hne
  | cons a as ih =>
      obtain ⟨ha, has⟩ := List.forall_mem_cons.mp h
      cases as with
      | nil => simpa using PartsText.last ha Gap.nil
      | cons next as =>
          simpa using PartsText.more ha Gap.nil Gap.nil (ih (List.cons_ne_nil next as) has)

/-- Parts between brackets, of which there may be none. -/
theorem bracketText_intercalate {α : Type} {opening closing : Char}
    {part : List Char → α → Prop} {text : α → List Char} {as : List α}
    (h : ∀ a ∈ as, part (text a) a) : BracketText opening closing part
      (opening :: ([','].intercalate (as.map text) ++ [closing])) as := by
  cases as with
  | nil => exact .empty Gap.nil
  | cons a as => exact .parts Gap.nil (partsText_intercalate (List.cons_ne_nil a as) h)

theorem entryText_write {valueText : List Char → Value → Prop} {entry : String × Value}
    (h : valueText (write entry.2) entry.2) : EntryText valueText (writeEntry entry) entry := by
  have hentry := EntryText.mk (keyText_write entry.1) Gap.nil (.inl rfl) Gap.nil h
  simpa [writeEntry] using hentry

/-- What is written for a value is a text of it, where as many containers may be inside
each other as there are in it. -/
theorem valueText_write {nesting : Nat} {value : Value} (hkeyed : value.Keyed)
    (hreadable : value.isReadable = true) (hnesting : value.nesting ≤ nesting) :
    ValueText nesting (write value) value := by
  induction nesting generalizing value with
  | zero =>
      cases value with
      | compound entries => simp [Value.nesting] at hnesting
      | list items => simp [Value.nesting] at hnesting
      | scalar s => exact valueOf_writeScalar hreadable
  | succ nesting ih =>
      cases hkeyed with
      | @compound entries hkeys hentries =>
          rw [Value.isReadable, Value.allScalars, Value.allScalarsEntries_iff] at hreadable
          rw [Value.nesting, Nat.succ_le_succ_iff, Value.nestingEntries_le_iff] at hnesting
          have hparts : ∀ entry ∈ entries, EntryText (ValueText nesting) (writeEntry entry) entry :=
            fun entry hentry => entryText_write
              (ih (hentries entry hentry) (hreadable entry hentry) (hnesting entry hentry))
          have htext := CompoundOf.mk (bracketText_intercalate hparts)
          rw [Compound.ofList_of_nodup hkeys, ← writeEntries_eq] at htext
          exact .compound htext
      | @list items hitems =>
          rw [Value.isReadable, Value.allScalars, Value.allScalarsItems_iff] at hreadable
          rw [Value.nesting, Nat.succ_le_succ_iff, Value.nestingItems_le_iff] at hnesting
          have htext : ListOf (ValueText nesting) (write (.list items)) items := by
            rw [write, writeItems_eq]
            exact bracketText_intercalate fun item hitem =>
              ih (hitems item hitem) (hreadable item hitem) (hnesting item hitem)
          exact .list htext
      | scalar => exact valueOf_writeScalar hreadable

end Literal

end TreeQuery
