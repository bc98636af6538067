import TreeQuery.Proofs.Path.Rewrite

/-!
# Reading what was written

A path without filters reads back what was written to it (`get_writeValue`).  Two facts
about the last selector and its slots carry this.  What it picks afterwards are slots, so
there is an equal value there (`Selector.Wrote.locate_equal`).  And every slot that was
written to is picked afterwards, even if the write made it (`Selector.Wrote.mem_locate`).

The selectors before the last one pick the same locations before and after the write.
They can pick no others, and without filters they can lose none.
-/

namespace TreeQuery

/-! ## Slots and picks -/

namespace Selector

variable {selector : Selector} {value old new : Value} {count : Nat} {slot : Address}

/-- What a selector picks below a value is a slot. -/
theorem mem_slots_of_mem_locate (hreach : selector.reach = 1) (h : slot ∈ selector.locate value) :
    slot ∈ selector.slots value := by
  cases selector with
  | child name =>
      cases value with
      | compound entries => exact List.mem_singleton.mpr (mem_locate.mp h).1
      | list items => cases h
      | scalar leaf => cases h
  | childMatching name pattern => exact h
  | rootMatching pattern => cases hreach
  | elements =>
      cases value with
      | compound entries => cases h
      | list items =>
          cases items with
          | nil => cases h
          | cons item rest => exact h
      | scalar leaf => cases h
  | element index => exact h
  | elementsMatching pattern => exact h

/-- The selector aims at its slots once it has written to them. -/
theorem aims_of_mem_slots (h : slot ∈ selector.slots old) :
    selector.Aims (selector.layoutAfter old) slot := by
  cases selector with
  | child name =>
      cases old with
      | compound entries => exact List.mem_singleton.mp h
      | list items => cases h
      | scalar leaf => cases h
  | childMatching name pattern => exact (mem_locate.mp h).1
  | rootMatching pattern => cases h
  | elements =>
      cases old with
      | compound entries => cases h
      | list items =>
          cases items with
          | nil => exact ⟨0, List.mem_singleton.mp h⟩
          | cons item rest =>
              have hlocate : slot ∈ elements.locate (.list (item :: rest)) := h
              exact (mem_locate.mp hlocate).1
      | scalar leaf => cases h
  | element index => exact (mem_locate.mp h).1
  | elementsMatching pattern => exact (mem_locate.mp h).1

/-- What is picked after a write equals what was written. -/
theorem Wrote.locate_equal (h : selector.Wrote value old new count) (hreach : selector.reach = 1)
    (hself : value.equal value = true) (hslot : slot ∈ selector.locate new) :
    ∃ found, new.get? slot = some found ∧ found.equal value = true :=
  h.slots_equal hself (mem_slots_of_mem_locate hreach hslot)

/-- A slot is picked after a write, unless a pattern decides. -/
theorem Wrote.mem_locate (h : selector.Wrote value old new count)
    (hplain : selector.pattern? = none) (hslot : slot ∈ selector.slots old) :
    slot ∈ selector.locate new := by
  obtain ⟨found, hfound, -⟩ := h.written.holds slot hslot
  refine Selector.mem_locate.mpr ⟨?_, found, hfound, ?_⟩
  · rw [h.layout]
    exact aims_of_mem_slots hslot
  · rw [admits, hplain]
    rfl

end Selector

/-! ## Paths without filters -/

namespace Path

variable {selectors : List Selector} {last : Selector} {value before after : Value}
  {answers : List (Address × Nat)}

/-- What is picked after a write to the picks of the selectors before the last one equals
what was written. -/
theorem picks_equal_of_wrote
    (hwrote : Value.EditedEach (last.Wrote value) (picks selectors before) before after answers)
    (hreach : last.reach = 1) (hself : value.equal value = true) {a : Address}
    (ha : a ∈ picks (selectors ++ [last]) after) :
    ∃ found, after.get? a = some found ∧ found.equal value = true := by
  obtain ⟨parent, hparent, inner, hinner, slot, hslot, rfl⟩ := mem_picks_concat.mp ha
  have hbefore := mem_picks_of_agrees hwrote.agrees hparent
  obtain ⟨old, new, count, -, -, hnew, hwrote⟩ := hwrote.wrote_at hbefore
  obtain rfl := Option.some.inj (hinner.symm.trans hnew)
  obtain ⟨found, hfound, hequal⟩ := hwrote.locate_equal hreach hself hslot
  exact ⟨found, by rw [Value.get?_append, hinner, Option.bind_some, hfound], hequal⟩

/-- Without patterns, something is picked where anything was written. -/
theorem picks_ne_nil_of_wrote
    (hwrote : Value.EditedEach (last.Wrote value) (picks selectors before) before after answers)
    (hplain : ∀ selector ∈ selectors ++ [last], selector.pattern? = none)
    (hcount : 0 < (answers.map Prod.snd).sum) : picks (selectors ++ [last]) after ≠ [] := by
  obtain ⟨hselectors, hlast⟩ := List.forall_mem_append.mp hplain
  have hwritten := hwrote.written (pairwise_disjoint_picks selectors before)
  rw [hwritten.counted, List.countP_pos_iff] at hcount
  obtain ⟨a, ha, -⟩ := hcount
  obtain ⟨parent, hparent, ha⟩ := List.mem_flatMap.mp ha
  obtain ⟨inner, hinner, slot, hslot, rfl⟩ := Value.mem_searchAt.mp ha
  obtain ⟨old, new, count, -, hold, hnew, hwroteAt⟩ := hwrote.wrote_at hparent
  obtain rfl := Option.some.inj (hinner.symm.trans hold)
  have hpicked := hwroteAt.mem_locate (hlast last (List.mem_singleton_self last)) hslot
  have hkept := kept_of_plain hselectors hwrote.agrees parent hparent
  exact List.ne_nil_of_mem (mem_picks_concat.mpr ⟨parent, hkept, new, hnew, slot, hpicked, rfl⟩)

/-- A path without filters reads back what was written to it.  All values it gives
afterwards equal the written one, and it does give some if the write changed anything. -/
theorem get_writeValue {text : String} {limit : Nat} {path : Path}
    (hparse : parse text limit = .ok path)
    (hplain : ∀ selector ∈ path.selectors, selector.pattern? = none) {root value result : Value}
    {count : Nat} (hkeyed : value.Keyed) (hvalue : value.isNaNFree = true)
    (h : path.writeValue root value = (result, .ok count)) :
    (∀ found, path.get result = .ok found → ∀ inner ∈ found, inner.equal value = true)
      ∧ (0 < count → ∃ found, path.get result = .ok found ∧ found ≠ []) := by
  have hself := Value.equal_self hkeyed hvalue
  rcases path.selectors_cases with hnil | ⟨selectors, last, hselectors⟩
  · obtain ⟨first, rest, hcons, -⟩ := selectors_of_parse hparse
    cases hnil.symm.trans hcons
  · rw [hselectors] at hplain
    obtain ⟨hbefore, hlast⟩ := List.forall_mem_append.mp hplain
    have hreach : last.reach = 1 := Selector.reach_of_plain (hlast last (List.mem_singleton_self _))
    obtain ⟨grown, parents, answers, hparents, hwrote, rfl⟩ := wrote_of_writeValue hselectors h
    obtain ⟨-, rfl, -⟩ := ensureParents_spec hselectors
      (fun selector hmem => Selector.copyable_of_plain (hbefore selector hmem)) hparents
    refine ⟨fun found hfound inner hinner => ?_, fun hcount => ?_⟩
    · rw [get_eq_ok hfound, hselectors] at hinner
      obtain ⟨a, ha, hget⟩ := List.mem_filterMap.mp hinner
      obtain ⟨there, hthere, hequal⟩ := picks_equal_of_wrote hwrote hreach hself ha
      rw [Option.some.inj (hget.symm.trans hthere)]
      exact hequal
    · have hne := picks_ne_nil_of_wrote hwrote hplain hcount
      rw [← hselectors] at hne
      exact ⟨_, get_of_picks hne, filterMap_picks_ne_nil hne⟩

/-- The first element has a last item to overwrite, the second one gets an empty list,
and the third one is no compound. -/
theorem get_writeValue_last :
    let path : Path := ⟨"a[].b[-1]", [⟨.child "a", 1⟩, ⟨.elements, 3⟩, ⟨.child "b", 5⟩,
      ⟨.element (-1), 9⟩]⟩
    let value : Value := .compound [("c", .scalar (.int 1))]
    let root : Value := .compound [("a", .list [.compound [("b", .list [.list [], .list []])],
      .compound [], .list []])]
    let result : Value := .compound [("a", .list [.compound [("b", .list [.list [], value])],
      .compound [("b", .list [])], .list []])]
    parse path.text = .ok path ∧ path.writeValue root value = (result, .ok 1)
      ∧ (∀ found, path.get result = .ok found → ∀ inner ∈ found, inner.equal value = true)
      ∧ ∃ found, path.get result = .ok found ∧ found ≠ [] := by
  intro path value root result
  have hparse : parse path.text = .ok path := by cbv
  have hplain : ∀ selector ∈ path.selectors, selector.pattern? = none := by
    simp [path, selectors, Selector.pattern?]
  have hkeyed : value.Keyed :=
    .compound (List.nodup_singleton _) (List.forall_mem_singleton.mpr .scalar)
  have hwrite : path.writeValue root value = (result, .ok 1) := rfl
  obtain ⟨hall, hsome⟩ := get_writeValue hparse hplain hkeyed rfl hwrite
  exact ⟨hparse, hwrite, hall, hsome Nat.one_pos⟩

end Path

end TreeQuery
