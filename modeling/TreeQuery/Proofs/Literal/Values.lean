import TreeQuery.Proofs.Literal.Grammar
import TreeQuery.Proofs.Value.Merging

/-!
# The values of literals

What the grammar says about the values that texts stand for.  The keys of a compound
are distinct, since a compound keeps only one of the entries with the same key
(`ValueText.keyed`).  And no more containers are inside each other than the nesting
of the grammar allows (`ValueText.nesting_le`).

Both are properties that a container has when its parts have them.  So there is one
induction on the nesting for all of them (`ValueText.induction`).  It also keeps the texts
of the parts, which stand inside the text of the container with no bare character next to
them (`Inside`).  So a bare word in a value is a whole run of bare characters of its text.
-/

namespace TreeQuery

/-! ## Nesting -/

mutual

/-- How deep the containers of the tree are inside each other. -/
def Value.nesting : Value → Nat
  | .compound entries => Value.nestingEntries entries + 1
  | .list items => Value.nestingItems items + 1
  | .scalar _ => 0

/-- The greatest nesting of the values of some entries. -/
def Value.nestingEntries : List (String × Value) → Nat
  | [] => 0
  | (_, value) :: rest => max (Value.nesting value) (Value.nestingEntries rest)

/-- The greatest nesting of some elements. -/
def Value.nestingItems : List Value → Nat
  | [] => 0
  | item :: rest => max (Value.nesting item) (Value.nestingItems rest)

end

theorem Value.nestingEntries_le_iff {entries : List (String × Value)} {limit : Nat} :
    Value.nestingEntries entries ≤ limit ↔ ∀ entry ∈ entries, entry.2.nesting ≤ limit := by
  induction entries with
  | nil => simp [Value.nestingEntries]
  | cons entry rest ih => rw [Value.nestingEntries, Nat.max_le, ih, List.forall_mem_cons]

theorem Value.nestingItems_le_iff {items : List Value} {limit : Nat} :
    Value.nestingItems items ≤ limit ↔ ∀ item ∈ items, item.nesting ≤ limit := by
  induction items with
  | nil => simp [Value.nestingItems]
  | cons item rest ih => rw [Value.nestingItems, Nat.max_le, ih, List.forall_mem_cons]

namespace Literal

open Reader

/-! ## Texts inside of texts -/

theorem stops_append {condition : Char → Bool} {first second : List Char}
    (h : Stops condition first) (h' : Stops condition second) :
    Stops condition (first ++ second) := by
  cases first with
  | nil => exact h'
  | cons c rest => exact h

theorem stops_append_of_ne_nil {condition : Char → Bool} {first : List Char} (hne : first ≠ [])
    (h : Stops condition first) (second : List Char) : Stops condition (first ++ second) := by
  obtain ⟨c, rest, rfl⟩ := List.exists_cons_of_ne_nil hne
  exact h

/-- The text stands inside the other one, with no bare character next to it. -/
def Inside (inner text : List Char) : Prop :=
  ∃ before after, text = before ++ inner ++ after ∧ Stops isBare before.reverse
    ∧ Stops isBare after

theorem Inside.refl (text : List Char) : Inside text text :=
  ⟨[], [], by simp, stops_nil _, stops_nil _⟩

theorem Inside.trans {inner middle text : List Char} (h : Inside inner middle)
    (h' : Inside middle text) : Inside inner text := by
  obtain ⟨before, after, rfl, hbefore, hafter⟩ := h
  obtain ⟨before', after', rfl, hbefore', hafter'⟩ := h'
  refine ⟨before' ++ before, after ++ after', by simp, ?_, stops_append hafter hafter'⟩
  rw [List.reverse_append]
  exact stops_append hbefore hbefore'

/-- A text stands inside of what ends with it, after a character that is not bare and a
gap. -/
theorem inside_of_mark {mark : Char} (hmark : isBare mark = false) {gap : List Char}
    (hgap : Gap gap) (before inner : List Char) :
    Inside inner (before ++ mark :: (gap ++ inner)) := by
  refine ⟨before ++ mark :: gap, [], by simp, ?_, stops_nil _⟩
  have hreverse : Gap gap.reverse := fun c hc => hgap c (List.mem_reverse.mp hc)
  rw [List.reverse_append, List.reverse_cons, List.append_assoc]
  exact stops_isBare_of_gap hreverse (stops_cons.mpr hmark)

/-! ## The parts of containers -/

theorem PartsText.exists_inside {α : Type} {part : List Char → α → Prop} {text : List Char}
    {as : List α} (h : PartsText part text as) :
    ∀ a ∈ as, ∃ inner, Inside inner text ∧ part inner a := by
  induction h with
  | @last text gap a ha hgap =>
      have hstop := stops_isBare_of_gap hgap (stops_nil isBare)
      rw [List.append_nil] at hstop
      exact List.forall_mem_singleton.mpr ⟨text, ⟨[], gap, rfl, stops_nil _, hstop⟩, ha⟩
  | @more text gap gap' rest a as ha hgap hgap' _ ih =>
      refine List.forall_mem_cons.mpr ⟨⟨text, ⟨[], gap ++ ',' :: (gap' ++ rest), by simp,
        stops_nil _, stops_isBare_of_gap hgap (stops_cons.mpr (by decide))⟩, ha⟩, fun b hb => ?_⟩
      obtain ⟨inner, hinner, hpart⟩ := ih b hb
      exact ⟨inner, hinner.trans (inside_of_mark (by decide) hgap' (text ++ gap) rest), hpart⟩

theorem BracketText.exists_inside {α : Type} {opening closing : Char}
    (hopening : isBare opening = false) (hclosing : isBare closing = false)
    {part : List Char → α → Prop} {text : List Char} {as : List α}
    (h : BracketText opening closing part text as) :
    ∀ a ∈ as, ∃ inner, Inside inner text ∧ part inner a := by
  cases h with
  | empty => exact nofun
  | @parts gap text as hgap hparts =>
      have hinside : Inside text (opening :: (gap ++ text ++ [closing])) := by
        have hclosed : Inside (opening :: (gap ++ text)) (opening :: (gap ++ text ++ [closing])) :=
          ⟨[], [closing], by simp, stops_nil _, stops_cons.mpr hclosing⟩
        exact (inside_of_mark hopening hgap [] text).trans hclosed
      intro a ha
      obtain ⟨inner, hinner, hpart⟩ := hparts.exists_inside a ha
      exact ⟨inner, hinner.trans hinside, hpart⟩

/-- Every value of a compound is the value of some text in it. -/
theorem CompoundOf.exists_inside {valueText : List Char → Value → Prop} {text : List Char}
    {entries : Compound} (h : CompoundOf valueText text entries) :
    ∀ entry ∈ entries, ∃ inner, Inside inner text ∧ valueText inner entry.2 := by
  cases h with
  | mk hbracket =>
      refine Compound.forall_mem_ofList
        (fun value => ∃ inner, Inside inner text ∧ valueText inner value) fun entry hentry => ?_
      obtain ⟨entryText, hentryText, hpart⟩ :=
        hbracket.exists_inside (by decide) (by decide) entry hentry
      cases hpart with
      | mk _ _ hmark hafter hvalue =>
          refine ⟨_, (inside_of_mark ?_ hafter _ _).trans hentryText, hvalue⟩
          obtain rfl | rfl := hmark
          · decide
          · decide

theorem CompoundOf.nodup_keys {valueText : List Char → Value → Prop} {text : List Char}
    {entries : Compound} (h : CompoundOf valueText text entries) :
    (Compound.keys entries).Nodup := by
  cases h with
  | mk => exact Compound.nodup_keys_ofList _

/-! ## Values -/

/-- What the value of every text in quotes and of every bare word has, and every container
with distinct keys whose parts have it, every value of a text has. -/
theorem ValueText.induction {motive : Nat → List Char → Value → Prop}
    (quoted : ∀ nesting text s, motive nesting text (.scalar (.string s)))
    (bare : ∀ nesting word, BareWord word → motive nesting word (.scalar (bareScalar word)))
    (compound : ∀ nesting text entries, (Compound.keys entries).Nodup →
      (∀ entry ∈ entries, ∃ inner, Inside inner text ∧ motive nesting inner entry.2) →
      motive (nesting + 1) text (.compound entries))
    (list : ∀ nesting text items,
      (∀ item ∈ items, ∃ inner, Inside inner text ∧ motive nesting inner item) →
      motive (nesting + 1) text (.list items))
    {nesting : Nat} {text : List Char} {value : Value} (h : ValueText nesting text value) :
    motive nesting text value := by
  induction nesting generalizing text value with
  | zero =>
      cases h with
      | compound hfalse => exact hfalse.elim
      | list hfalse => exact hfalse.elim
      | quoted => exact quoted 0 _ _
      | bare hword => exact bare 0 _ hword
  | succ nesting ih =>
      cases h with
      | compound hcompound =>
          refine compound nesting _ _ hcompound.nodup_keys fun entry hentry => ?_
          obtain ⟨inner, hinner, hvalue⟩ := hcompound.exists_inside entry hentry
          exact ⟨inner, hinner, ih hvalue⟩
      | list hlist =>
          refine list nesting _ _ fun item hitem => ?_
          obtain ⟨inner, hinner, hvalue⟩ :=
            BracketText.exists_inside (by decide) (by decide) hlist item hitem
          exact ⟨inner, hinner, ih hvalue⟩
      | quoted => exact quoted (nesting + 1) _ _
      | bare hword => exact bare (nesting + 1) _ hword

theorem ValueText.keyed {nesting : Nat} {text : List Char} {value : Value}
    (h : ValueText nesting text value) : value.Keyed := by
  refine ValueText.induction (motive := fun _ _ value => value.Keyed) ?_ ?_ ?_ ?_ h
  · exact fun _ _ _ => .scalar
  · exact fun _ _ _ => .scalar
  · intro _ _ entries hkeys hentries
    refine .compound hkeys fun entry hentry => ?_
    obtain ⟨-, -, hkeyed⟩ := hentries entry hentry
    exact hkeyed
  · intro _ _ items hitems
    refine .list fun item hitem => ?_
    obtain ⟨-, -, hkeyed⟩ := hitems item hitem
    exact hkeyed

theorem ValueText.nesting_le {nesting : Nat} {text : List Char} {value : Value}
    (h : ValueText nesting text value) : value.nesting ≤ nesting := by
  refine ValueText.induction (motive := fun nesting _ value => value.nesting ≤ nesting)
    ?_ ?_ ?_ ?_ h
  · exact fun nesting _ _ => Nat.zero_le nesting
  · exact fun nesting _ _ => Nat.zero_le nesting
  · intro nesting _ entries _ hentries
    refine Nat.succ_le_succ (Value.nestingEntries_le_iff.mpr fun entry hentry => ?_)
    obtain ⟨-, -, hle⟩ := hentries entry hentry
    exact hle
  · intro nesting _ items hitems
    refine Nat.succ_le_succ (Value.nestingItems_le_iff.mpr fun item hitem => ?_)
    obtain ⟨-, -, hle⟩ := hitems item hitem
    exact hle

/-- The text is a bare word of the other text, whole as it stands there. -/
def StandsIn (word text : List Char) : Prop := BareWord word ∧ Inside word text

/-- What holds of all texts, and of the leaves of the bare words that stand in a text, holds
of all leaves of its value. -/
theorem ValueText.allScalars {condition : Scalar → Bool}
    (hstring : ∀ s, condition (.string s) = true) {nesting : Nat} {text : List Char}
    {value : Value} (h : ValueText nesting text value) :
    (∀ word, StandsIn word text → condition (bareScalar word) = true) →
      value.allScalars condition = true := by
  refine ValueText.induction (motive := fun _ text value =>
    (∀ word, StandsIn word text → condition (bareScalar word) = true) →
      value.allScalars condition = true) ?_ ?_ ?_ ?_ h
  · exact fun _ _ s _ => hstring s
  · exact fun _ word hword hall => hall word ⟨hword, .refl word⟩
  · intro _ text entries _ hentries hall
    refine Value.allScalarsEntries_iff.mpr fun entry hentry => ?_
    obtain ⟨inner, hinner, hparts⟩ := hentries entry hentry
    exact hparts fun word hword => hall word ⟨hword.1, hword.2.trans hinner⟩
  · intro _ text items hitems hall
    refine Value.allScalarsItems_iff.mpr fun item hitem => ?_
    obtain ⟨inner, hinner, hparts⟩ := hitems item hitem
    exact hparts fun word hword => hall word ⟨hword.1, hword.2.trans hinner⟩

/-- If a condition holds of all texts but not of all leaves, it does not hold of the leaf of
some bare word that stands in the text. -/
theorem ValueText.exists_word {condition : Scalar → Bool}
    (hstring : ∀ s, condition (.string s) = true) {nesting : Nat} {text : List Char}
    {value : Value} (h : ValueText nesting text value)
    (hfalse : value.allScalars condition = false) :
    ∃ word, StandsIn word text ∧ condition (bareScalar word) = false := by
  refine Classical.byContradiction fun hnone => ?_
  have htrue := h.allScalars hstring fun word hword =>
    Bool.of_not_eq_false fun hnot => hnone ⟨word, hword, hnot⟩
  rw [hfalse] at htrue
  cases htrue

/-- A compound is a value. -/
theorem CompoundText.valueText {nesting : Nat} {text : List Char} {entries : Compound}
    (h : CompoundText nesting text entries) : ValueText nesting text (.compound entries) := by
  cases nesting with
  | zero => exact h.elim
  | succ nesting => exact .compound h

theorem CompoundText.keyed {nesting : Nat} {text : List Char} {entries : Compound}
    (h : CompoundText nesting text entries) : Value.Keyed (.compound entries) :=
  h.valueText.keyed

end Literal

end TreeQuery
