import TreeQuery.Literal.Reader
import TreeQuery.Proofs.Token

/-!
# The grammar of literals

The texts of literals and the values they stand for, as relations between the two:

    value    := compound | list | quoted | bareword
    compound := '{' (entry (',' entry)*)? '}'
    entry    := (quoted | bareword) (':' | '=') value
    list     := '[' (value (',' value)*)? ']'

Blanks may stand between any two tokens.  A gap belongs to the token before it, so
the text of a part never starts or ends with a gap of its own.

Each production is a relation over the relations of what it is made of.
`ValueText nesting` ties them together for the values whose containers are nested
at most `nesting` deep.  The recursion is on the nesting, so a value in a container
is one of the level below.

No production starts with a blank, a comma or a closing bracket (`IsStart`).  That
is why a reader that skips blanks, and looks at one character after a comma, does
not lose a text.
-/

namespace TreeQuery.Literal

open Reader

/-! ## Productions -/

/-- One or more bare characters. -/
def BareWord (word : List Char) : Prop := word ≠ [] ∧ ∀ c ∈ word, isBare c = true

/-- `key := quoted | bareword` -/
inductive KeyText : List Char → String → Prop where
  | quoted {text : List Char} {name : String} : QuotedText text name → KeyText text name
  | bare {word : List Char} : BareWord word → KeyText word (String.ofList word)

/-- `entry := key (':' | '=') value` -/
inductive EntryText (value : List Char → Value → Prop) : List Char → String × Value → Prop where
  | mk {key before after text : List Char} {mark : Char} {name : String} {found : Value} :
      KeyText key name → Gap before → mark = ':' ∨ mark = '=' → Gap after → value text found →
      EntryText value (key ++ before ++ mark :: (after ++ text)) (name, found)

/-- `part (',' part)*`, with a gap after each part and after each comma. -/
inductive PartsText {α : Type} (part : List Char → α → Prop) : List Char → List α → Prop where
  | last {text gap : List Char} {a : α} :
      part text a → Gap gap → PartsText part (text ++ gap) [a]
  | more {text gap gap' rest : List Char} {a : α} {as : List α} :
      part text a → Gap gap → Gap gap' → PartsText part rest as →
      PartsText part (text ++ gap ++ ',' :: (gap' ++ rest)) (a :: as)

/-- Parts, of which there may be none, between brackets. -/
inductive BracketText {α : Type} (opening closing : Char) (part : List Char → α → Prop) :
    List Char → List α → Prop where
  | empty {gap : List Char} : Gap gap →
      BracketText opening closing part (opening :: (gap ++ [closing])) []
  | parts {gap text : List Char} {as : List α} : Gap gap → PartsText part text as →
      BracketText opening closing part (opening :: (gap ++ text ++ [closing])) as

/-- `compound := '{' (entry (',' entry)*)? '}'`.  A repeated key keeps its first
place and gets its last value. -/
inductive CompoundOf (value : List Char → Value → Prop) : List Char → Compound → Prop where
  | mk {text : List Char} {entries : List (String × Value)} :
      BracketText '{' '}' (EntryText value) text entries →
      CompoundOf value text (Compound.ofList entries)

/-- `list := '[' (value (',' value)*)? ']'` -/
def ListOf (value : List Char → Value → Prop) : List Char → List Value → Prop :=
  BracketText '[' ']' value

/-- `value := compound | list | quoted | bareword` -/
inductive ValueOf (compound : List Char → Compound → Prop)
    (list : List Char → List Value → Prop) : List Char → Value → Prop where
  | compound {text : List Char} {entries : Compound} :
      compound text entries → ValueOf compound list text (.compound entries)
  | list {text : List Char} {items : List Value} :
      list text items → ValueOf compound list text (.list items)
  | quoted {text : List Char} {s : String} :
      QuotedText text s → ValueOf compound list text (.scalar (.string s))
  | bare {word : List Char} :
      BareWord word → ValueOf compound list word (.scalar (bareScalar word))

/-- The texts of values whose containers are nested at most so deep. -/
def ValueText : Nat → List Char → Value → Prop
  | 0 => ValueOf (fun _ _ => False) (fun _ _ => False)
  | nesting + 1 => ValueOf (CompoundOf (ValueText nesting)) (ListOf (ValueText nesting))

/-- The texts of compounds whose containers, the compound itself included, are
nested at most so deep. -/
def CompoundText : Nat → List Char → Compound → Prop
  | 0 => fun _ _ => False
  | nesting + 1 => CompoundOf (ValueText nesting)

/-! ## What a production starts with -/

/-- A character that a key or a value can start with. -/
def isStart (c : Char) : Bool := isBare c || isQuote c || c = '\x7b' || c = '['

/-- The text starts with a character that a key or a value can start with. -/
def IsStart (text : List Char) : Prop := ∃ c rest, text = c :: rest ∧ isStart c = true

theorem BareWord.start {word : List Char} (h : BareWord word) : IsStart word := by
  obtain ⟨hne, hall⟩ := h
  cases word with
  | nil => exact absurd rfl hne
  | cons c rest =>
      have hc : isBare c = true := hall c (List.mem_cons_self ..)
      exact ⟨c, rest, rfl, by simp [isStart, hc]⟩

theorem start_of_quotedText {text : List Char} {s : String} (h : QuotedText text s) :
    IsStart text := by
  cases h with
  | @mk quote rest text hquote hrest => exact ⟨quote, rest, rfl, by simp [isStart, hquote]⟩

theorem KeyText.start {text : List Char} {name : String} (h : KeyText text name) :
    IsStart text := by
  cases h with
  | quoted hquoted => exact start_of_quotedText hquoted
  | bare hword => exact hword.start

theorem IsStart.append {text : List Char} (h : IsStart text) (rest : List Char) :
    IsStart (text ++ rest) := by
  obtain ⟨c, tail, rfl, hc⟩ := h
  exact ⟨c, tail ++ rest, rfl, hc⟩

theorem EntryText.start {value : List Char → Value → Prop} {text : List Char}
    {entry : String × Value} (h : EntryText value text entry) : IsStart text := by
  cases h with
  | mk hkey => exact (hkey.start.append _).append _

theorem BracketText.head? {α : Type} {opening closing : Char} {part : List Char → α → Prop}
    {text : List Char} {as : List α} (h : BracketText opening closing part text as) :
    text.head? = some opening := by
  cases h with
  | empty => rfl
  | parts => rfl

theorem BracketText.getLast? {α : Type} {opening closing : Char} {part : List Char → α → Prop}
    {text : List Char} {as : List α} (h : BracketText opening closing part text as) :
    text.getLast? = some closing := by
  cases h with
  | empty => rw [← List.cons_append, List.getLast?_concat]
  | parts => rw [← List.cons_append, List.getLast?_concat]

/-- The text of a compound starts with its brace. -/
theorem CompoundText.head? {nesting : Nat} {text : List Char} {entries : Compound}
    (h : CompoundText nesting text entries) : text.head? = some '\x7b' := by
  cases nesting with
  | zero => exact h.elim
  | succ nesting =>
      cases h with
      | mk hbracket => exact hbracket.head?

/-- It ends with its other brace. -/
theorem CompoundText.getLast? {nesting : Nat} {text : List Char} {entries : Compound}
    (h : CompoundText nesting text entries) : text.getLast? = some '\x7d' := by
  cases nesting with
  | zero => exact h.elim
  | succ nesting =>
      cases h with
      | mk hbracket => exact hbracket.getLast?

theorem BracketText.start {α : Type} {opening closing : Char} {part : List Char → α → Prop}
    {text : List Char} {as : List α} (hopening : isStart opening = true)
    (h : BracketText opening closing part text as) : IsStart text := by
  obtain ⟨rest, hrest⟩ := List.head?_eq_some_iff.mp h.head?
  exact ⟨opening, rest, hrest, hopening⟩

/-- A value starts as its production does. -/
theorem ValueText.start {nesting : Nat} {text : List Char} {value : Value}
    (h : ValueText nesting text value) : IsStart text := by
  cases nesting with
  | zero =>
      cases h with
      | compound hfalse => exact hfalse.elim
      | list hfalse => exact hfalse.elim
      | quoted hquoted => exact start_of_quotedText hquoted
      | bare hword => exact hword.start
  | succ nesting =>
      cases h with
      | compound hcompound =>
          cases hcompound with
          | mk hbracket => exact hbracket.start (by decide)
      | list hlist => exact BracketText.start (by decide) hlist
      | quoted hquoted => exact start_of_quotedText hquoted
      | bare hword => exact hword.start

theorem PartsText.start {α : Type} {part : List Char → α → Prop} {text : List Char}
    {as : List α} (hpart : ∀ {text a}, part text a → IsStart text)
    (h : PartsText part text as) : IsStart text := by
  cases h with
  | last ha => exact (hpart ha).append _
  | more ha => exact ((hpart ha).append _).append _

/-- A letter or digit of ASCII has one of three runs of codes. -/
theorem code_of_isAlphanum {c : Char} (h : c.isAlphanum = true) :
    (65 ≤ c.toNat ∧ c.toNat ≤ 90 ∨ 97 ≤ c.toNat ∧ c.toNat ≤ 122)
      ∨ 48 ≤ c.toNat ∧ c.toNat ≤ 57 := by
  change (decide (65 ≤ c.val ∧ c.val ≤ 90) || (decide (97 ≤ c.val) && decide (c.val ≤ 122))
    || (decide (48 ≤ c.val) && decide (c.val ≤ 57))) = true at h
  simp only [Bool.or_eq_true, Bool.and_eq_true, decide_eq_true_eq, UInt32.le_iff_toNat_le] at h
  exact h

/-- No bare character is blank: it is a letter or digit of ASCII or one of four signs. -/
theorem isBlank_of_isBare {c : Char} (h : isBare c = true) : Text.isBlank c = false := by
  simp only [isBare, Bool.or_eq_true, decide_eq_true_eq] at h
  have hcode : 43 ≤ c.toNat ∧ c.toNat ≤ 122 := by
    rcases h with (((h | rfl) | rfl) | rfl) | rfl
    · have hrun := code_of_isAlphanum h
      omega
    · decide
    · decide
    · decide
    · decide
  simp only [Text.isBlank, Text.blankRuns, List.any_cons, List.any_nil, Bool.or_eq_false_iff,
    Bool.and_eq_false_iff, decide_eq_false_iff_not, and_true]
  omega

theorem isBlank_of_isStart {c : Char} (h : isStart c = true) : Text.isBlank c = false := by
  simp only [isStart, Bool.or_eq_true, decide_eq_true_eq, isQuote_eq_true] at h
  rcases h with ((h | rfl | rfl) | rfl) | rfl
  · exact isBlank_of_isBare h
  · decide
  · decide
  · decide
  · decide

/-- A text that starts so does not start with a blank. -/
theorem IsStart.stops_isBlank {text : List Char} (h : IsStart text) : Stops Text.isBlank text := by
  obtain ⟨c, rest, rfl, hc⟩ := h
  rw [stops_cons]
  exact isBlank_of_isStart hc

/-- A character that no key or value starts with is not the first one. -/
theorem IsStart.head?_ne {text : List Char} (h : IsStart text) {c : Char}
    (hc : isStart c = false) : text.head? ≠ some c := by
  obtain ⟨d, rest, rfl, hd⟩ := h
  intro heq
  rw [List.head?_cons, Option.some.injEq] at heq
  subst heq
  rw [hc] at hd
  cases hd

/-- A gap before something that is not bare does not go on with a bare character. -/
theorem stops_isBare_of_gap {gap rest : List Char} (hgap : Gap gap) (hrest : Stops isBare rest) :
    Stops isBare (gap ++ rest) := by
  cases gap with
  | nil => exact hrest
  | cons c gap =>
      have hc : Text.isBlank c = true := hgap c (List.mem_cons_self ..)
      rw [List.cons_append, stops_cons]
      cases hbare : isBare c with
      | false => rfl
      | true =>
          rw [isBlank_of_isBare hbare] at hc
          cases hc

end TreeQuery.Literal
