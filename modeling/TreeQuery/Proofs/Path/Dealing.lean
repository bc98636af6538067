import TreeQuery.Proofs.Path.Order
import TreeQuery.Proofs.Path.Write
import TreeQuery.Proofs.Selector.Dealing

/-!
# Dealing values to a path

A write to a path deals the values of its supply to the slots of the last selector, one
parent after the other (`Value.editEach_filled`).  The parents part from each other, so no
slot is a slot of two of them, and what a parent got is not touched again.

Parents and slots are both in the order of the document, and so the values are dealt in
that order too.  A parent without slots makes the write take nothing
(`Path.write_deals_in_order`).
-/

namespace TreeQuery

theorem Selector.sorted_slots (selector : Selector) (value : Value) :
    (selector.slots value).Pairwise Address.Precedes := by
  unfold slots
  split
  · exact List.pairwise_singleton _ _
  · exact List.pairwise_singleton _ _
  · exact List.Pairwise.nil
  · exact sorted_locate selector value

/-- The values are dealt to the slots of one parent after the other. -/
theorem Value.editEach_filled (last : Selector) {parents : List Address} :
    ∀ {root : Value}, root.Sites parents → ∀ s : Supply, ∃ calls,
      Filled (parents.flatMap (root.searchAt last.slots)) calls s
        ((editEach last.write parents root).run s).2 root
        ((editEach last.write parents root).run s).1.1 := by
  induction parents with
  | nil => exact fun _ s => ⟨[], .nothing s _⟩
  | cons parent rest ih =>
      intro root hsites s
      obtain ⟨haway, -⟩ := List.pairwise_cons.mp hsites.apart
      obtain ⟨old, hold⟩ := hsites.there parent (List.mem_cons_self ..)
      obtain ⟨calls, hfilled⟩ := last.write_filled old s
      rw [run_editEach_cons rest s hold, List.flatMap_cons, searchAt_of_get? _ hold]
      generalize (last.write old).run s = first at hfilled
      obtain ⟨⟨new, changed⟩, s₁⟩ := first
      dsimp only at hfilled ⊢
      obtain ⟨calls', hothers⟩ := ih (hsites.put new) s₁
      -- The other parents are as they were before.
      have hsame : ∀ other ∈ rest, (root.put parent new).searchAt last.slots other
          = root.searchAt last.slots other := fun other hother =>
        searchAt_congr _ (get?_put_disjoint root _ (haway other hother))
      rw [List.flatMap_congr hsame] at hothers
      refine ⟨_, hfilled.below_then hold (fun slot hslot => ?_) hothers⟩
      obtain ⟨other, hother, hslot⟩ := List.mem_flatMap.mp hslot
      obtain ⟨inner, -, below, -, rfl⟩ := mem_searchAt.mp hslot
      exact (haway other hother).append_right below

namespace Path

/-- The slots of a path are those of its parents, and they come in the same order. -/
theorem sorted_slots {path : Path} {root grown : Value} {parents : List Address}
    (h : path.ensureParents root = (grown, .ok parents)) :
    (path.slots grown parents).Pairwise Address.Precedes := by
  rw [slots]
  cases path.selectors.getLast? with
  | none => exact List.Pairwise.nil
  | some last =>
      exact Value.pairwise_searchAt Address.carries_precedes (ensureParents_sorted h)
        last.sorted_slots

/-- A slot below a parent was found from there, since the parents part from each other. -/
theorem mem_slots_below {path : Path} {grown : Value} {parents : List Address}
    {parent slot : Address} (hsites : grown.Sites parents) (hparent : parent ∈ parents)
    (hslot : slot ∈ path.slots grown parents) (hle : parent <+: slot) :
    slot ∈ path.slots grown [parent] := by
  rw [slots] at hslot ⊢
  cases hlast : path.selectors.getLast? with
  | none =>
      rw [hlast] at hslot
      cases hslot
  | some last =>
      rw [hlast] at hslot
      obtain ⟨other, hother, hfound⟩ := List.mem_flatMap.mp hslot
      have hsame : other = parent := by
        by_contra hne
        have : Std.Symm Address.Disjoint := ⟨fun _ _ h => h.symm⟩
        have hapart := hsites.apart.forall hother hparent hne
        obtain ⟨inner, -, below, -, rfl⟩ := Value.mem_searchAt.mp hfound
        exact (hapart.append_left below).2 hle
      exact List.mem_flatMap.mpr ⟨parent, List.mem_singleton_self _, hsame ▸ hfound⟩

/-- A write that succeeds has dealt the values of the supply to the slots of the path, in the
order of the document.  A slot holds the value that was taken for it and for no other, or
it keeps an old value that equals one of those taken.  Apart from the slots nothing has
changed since the parents were ensured, and for a parent without slots no value is
taken. -/
theorem write_deals_in_order (path : Path) (root : Value) (supply : Supply) (result : Value)
    (count : Nat) (supply' : Supply)
    (h : (path.write root).run supply = ((result, .ok count), supply')) :
    ∃ grown parents calls, path.ensureParents root = (grown, .ok parents)
      ∧ Value.Filled (path.slots grown parents) calls supply supply' grown result
      ∧ Address.Ordered (path.slots grown parents) ∧ Address.Ordered calls
      ∧ ∀ parent ∈ parents, path.slots grown [parent] = [] →
          ∀ call ∈ calls, ¬parent <+: call := by
  -- It suffices to deal the values: the order is that of the slots.
  suffices hdeal : ∃ grown parents calls, path.ensureParents root = (grown, .ok parents)
      ∧ Value.Filled (path.slots grown parents) calls supply supply' grown result by
    obtain ⟨grown, parents, calls, hparents, hfilled⟩ := hdeal
    have hsorted := sorted_slots hparents
    refine ⟨grown, parents, calls, hparents, hfilled, Address.ordered_of_sorted hsorted,
      Address.ordered_of_sorted (hsorted.sublist hfilled.dealt.order), ?_⟩
    intro parent hparent hnone call hcall hle
    have hslot := hfilled.dealt.order.subset hcall
    have hbelow := mem_slots_below (ensureParents_sites hparents) hparent hslot hle
    rw [hnone] at hbelow
    cases hbelow
  rcases path.selectors_cases with hnil | ⟨selectors, last, hselectors⟩
  · have hwrite : (path.write root).run supply = ((root, .ok 0), supply) := by
      rw [write, hnil]
      generalize path.ensureParents root = outcome
      obtain ⟨grown, failure | found⟩ := outcome
      · rfl
      · rfl
    rw [hwrite] at h
    obtain ⟨hresult, rfl⟩ := Prod.mk.inj h
    obtain ⟨rfl, -⟩ := Prod.mk.inj hresult
    refine ⟨root, [[]], [], ensureParents_of_nil hnil root, ?_⟩
    rw [slots, hnil]
    exact .nothing supply root
  · have hlast : path.selectors.getLast? = some last := by
      rw [hselectors, List.getLast?_concat]
    rw [write, hlast] at h
    generalize hparents : path.ensureParents root = outcome at h
    obtain ⟨grown, failure | parents⟩ := outcome
    · cases (Prod.mk.inj (Prod.mk.inj h).1).2
    · obtain ⟨calls, hfilled⟩ := Value.editEach_filled last (ensureParents_sites hparents) supply
      obtain ⟨hresult, rfl⟩ := Prod.mk.inj h
      obtain ⟨rfl, -⟩ := Prod.mk.inj hresult
      refine ⟨grown, parents, calls, rfl, ?_⟩
      rw [slots, hlast]
      exact hfilled

/-- The first element keeps its value, which equals the first one taken, and the list takes
none.  The last element gets the second value, also though the first is in no slot. -/
theorem write_deals_in_order_past_list :
    let path : Path := ⟨"a[].b", [⟨.child "a", 1⟩, ⟨.elements, 3⟩, ⟨.child "b", 5⟩]⟩
    let number (n : Nat) : Value := .scalar (.int (Int64.ofNat n))
    let root : Value := .compound [("a", .list [.compound [("b", number 0)], .list [],
      .compound []])]
    let result : Value := .compound [("a", .list [.compound [("b", number 0)], .list [],
      .compound [("b", number 1)]])]
    (path.write root).run ⟨number, 0⟩ = ((result, .ok 1), ⟨number, 2⟩)
      ∧ ∃ grown parents calls, path.ensureParents root = (grown, .ok parents)
        ∧ Value.Filled (path.slots grown parents) calls ⟨number, 0⟩ ⟨number, 2⟩ grown result := by
  intro path number root result
  have hwrite : (path.write root).run ⟨number, 0⟩ = ((result, .ok 1), ⟨number, 2⟩) := rfl
  obtain ⟨grown, parents, calls, hparents, hfilled, -⟩ :=
    write_deals_in_order path root ⟨number, 0⟩ result 1 ⟨number, 2⟩ hwrite
  exact ⟨hwrite, grown, parents, calls, hparents, hfilled⟩

end Path

end TreeQuery
