import TreeQuery.Proofs.Selector.Locate
import TreeQuery.Proofs.Value.Without
import TreeQuery.Selector.Edit

/-!
# Laws of erasing by a selector

Erasing takes from a value exactly the locations that the selector picks in it, and
the answer is their number (`Selector.erase_spec`).  This holds for every selector
but a root filter, which picks the value itself and erases nothing.

A compound takes away one key, and its keys must be distinct for that.  A list takes
away all elements, those that satisfy a condition, or the one at a position.
-/

namespace TreeQuery

/-! ## Keys -/

theorem Compound.erase_eq_filter {entries : Compound} {name : String}
    (hkeys : (keys entries).Nodup) :
    erase entries name = entries.filter fun entry => !(entry.1 == name) := by
  induction entries with
  | nil => rfl
  | cons entry rest ih =>
      obtain ⟨key, value⟩ := entry
      obtain ⟨hkey, hrest⟩ := List.nodup_cons.mp hkeys
      rw [erase, List.filter_cons]
      by_cases heq : key = name
      · subst heq
        have hothers : rest.filter (fun entry => !(entry.1 == key)) = rest := by
          refine List.filter_eq_self.mpr fun entry hentry => ?_
          have hmem : entry.1 ∈ keys rest := List.mem_map_of_mem hentry
          have hne : entry.1 ≠ key := by
            rintro rfl
            exact hkey hmem
          simp [hne]
        simp [hothers]
      · simp [heq, ih hrest]

namespace Selector

/-! ## Erasing -/

/-- One key goes, if a condition holds. -/
theorem erase_key {entries : Compound} (hkeys : (Compound.keys entries).Nodup) (name : String)
    (condition : Bool) :
    (if condition then (Value.compound (Compound.erase entries name), 1)
        else (Value.compound entries, 0))
      = ((Value.compound entries).without (if condition then [[Step.key name]] else []).contains,
        (if condition then [[Step.key name]] else []).length) := by
  cases condition with
  | false =>
      show (Value.compound entries, 0) = ((Value.compound entries).without fun _ => false, 0)
      rw [Value.without_false]
  | true =>
      have hgone : ∀ entry : String × Value,
          [[Step.key name]].contains [Step.key entry.1] = (entry.1 == name) := by
        intro entry
        rw [Bool.eq_iff_iff]
        simp
      simp only [if_true, List.length_singleton, Value.without, Compound.erase_eq_filter hkeys]
      rw [Value.withoutEntries_of_flat fun step step' below => by simp]
      simp only [hgone]

/-- The elements that satisfy a condition go. -/
theorem erase_items (condition : Value → Bool) (items : List Value) :
    (Value.list items).without
        ((positionsFrom condition 0 items).map fun position => [Step.index position]).contains
      = .list (items.filter fun item => !condition item) := by
  rw [Value.without, Value.withoutItems_eq_filter fun step step' below => by simp]
  intro position item hitem
  rw [Bool.eq_iff_iff, List.contains_iff_mem, mem_locate_index]
  constructor
  · rintro ⟨-, found, hfound, hcondition⟩
    rw [Value.get?_index, Nat.zero_add, hitem] at hfound
    exact Option.some.inj hfound ▸ hcondition
  · intro hcondition
    exact ⟨⟨0 + position, rfl⟩, item, by rw [Value.get?_index, Nat.zero_add, hitem], hcondition⟩

/-- A selector erases what it picks, and counts it. -/
theorem erase_spec {selector : Selector} (hreach : selector.reach = 1) {value : Value}
    (hkeyed : value.Keyed) :
    selector.erase value = (value.without (selector.locate value).contains,
      (selector.locate value).length) := by
  -- A value of the wrong kind has no picks.
  have hnothing : (value, 0) = (value.without ([] : List Address).contains, 0) := by
    show (value, 0) = (value.without fun _ => false, 0)
    rw [Value.without_false]
  cases selector with
  | child name =>
      cases hkeyed with
      | compound hkeys => exact erase_key hkeys name _
      | list => exact hnothing
      | scalar => exact hnothing
  | childMatching name pattern =>
      cases hkeyed with
      | compound hkeys => exact erase_key hkeys name _
      | list => exact hnothing
      | scalar => exact hnothing
  | rootMatching pattern => cases hreach
  | elements =>
      cases hkeyed with
      | compound => exact hnothing
      | @list items =>
          rw [locate, erase_items, List.length_map, length_positionsFrom]
          simp [erase]
      | scalar => exact hnothing
  | element index =>
      cases hkeyed with
      | compound => exact hnothing
      | @list items =>
          cases hposition : resolveIndex index items.length with
          | none =>
              rw [erase, locate, hposition]
              exact hnothing
          | some place =>
              have hgone : ∀ position, [[Step.index place]].contains [Step.index (0 + position)]
                  = (position == place) := by
                intro position
                rw [Bool.eq_iff_iff]
                simp
              have hrest := @Value.withoutItems_eq_eraseIdx [[Step.index place]].contains place
                (fun step step' below => by simp) items 0 hgone
              rw [erase, locate, hposition]
              simp only [Option.toList_some, List.map_singleton, Value.without, hrest,
                List.length_singleton]
      | scalar => exact hnothing
  | elementsMatching pattern =>
      cases hkeyed with
      | compound => exact hnothing
      | @list items =>
          rw [locate, erase_items, List.length_map, length_positionsFrom]
          rfl
      | scalar => exact hnothing

end Selector

end TreeQuery
