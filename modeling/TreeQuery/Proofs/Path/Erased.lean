import TreeQuery.Proofs.Path.Erase
import TreeQuery.Proofs.Path.Rewrite
import TreeQuery.Proofs.Selector.Alike

/-!
# Erasing a path twice

Most selectors take all they can pick: once they have erased in a value, they pick nothing
in it any more (`Selector.locate_erase`).  An index is different, since the next element
moves to its position.

What is taken away lies below the parents.  It may be what a filter on the way to them has
asked for, and then the filter no longer picks the place.  But it cannot make a filter pick
a new one, since apart from what was picked before every value is the same.  So after
erasing, the selectors before the last one pick no parents but old ones, and in these there
is nothing left.  The path counts nothing, and erasing it again changes nothing
(`Path.erase_again`).
-/

namespace TreeQuery

namespace Selector

/-- The selector takes all it can pick when it erases. -/
def TakesAll : Selector → Prop
  | .child _ | .childMatching .. | .elements | .elementsMatching _ => True
  | .element _ | .rootMatching _ => False

theorem TakesAll.reach {selector : Selector} (h : selector.TakesAll) : selector.reach = 1 := by
  rcases selector.reach_cases with hreach | ⟨pattern, rfl⟩
  · exact hreach
  · exact h.elim

/-- Where such a selector has erased, it picks nothing. -/
theorem locate_erase {selector : Selector} (h : selector.TakesAll) {value : Value}
    (hkeyed : value.Keyed) : selector.locate (selector.erase value).1 = [] := by
  cases selector with
  | child name =>
      cases hkeyed with
      | @compound entries hkeys =>
          rw [erase]
          split
          · simp [locate, Compound.get?_erase hkeys]
          · next hnone => simp [locate, hnone]
      | list => rfl
      | scalar => rfl
  | childMatching name pattern =>
      cases hkeyed with
      | @compound entries hkeys =>
          rw [erase]
          split
          · simp [locate, Compound.get?_erase hkeys]
          · next hnone => simp [locate, hnone]
      | list => rfl
      | scalar => rfl
  | rootMatching pattern => exact h.elim
  | elements =>
      cases hkeyed with
      | compound => rfl
      | list => rfl
      | scalar => rfl
  | element index => exact h.elim
  | elementsMatching pattern =>
      cases hkeyed with
      | compound => rfl
      | @list items =>
          by_contra hne
          obtain ⟨item, hitem, haccepts⟩ := List.any_eq_true.mp (any_accepts_iff.mpr hne)
          obtain ⟨-, hrefused⟩ := List.mem_filter.mp hitem
          simp [haccepts] at hrefused
      | scalar => rfl

end Selector

namespace Path

/-- After erasing, a path whose last selector takes all it can pick picks nothing. -/
theorem picks_erase {path : Path} {parents : List Selector} {last : Selector}
    (h : path.selectors = parents ++ [last]) (hlast : last.TakesAll) {root : Value}
    (hkeyed : root.Keyed) : picks path.selectors (path.erase root).1 = [] := by
  rw [List.eq_nil_iff_forall_not_mem, h, erase_of_concat h]
  intro a ha
  rcases locateFrom_cases parents root with hok | ⟨hnil, ordinal, herror⟩
  · rw [hok] at ha
    have hedited := Value.editEach_pure last.erase (picks_sites parents root)
    dsimp only at ha
    obtain ⟨parent, hparent, inner, hinner, below, hbelow, -⟩ := mem_picks_concat.mp ha
    -- The parent was picked before, so the last selector has erased in it.
    have hbefore := mem_picks_of_agrees hedited.agrees hparent
    rw [← hedited.places] at hbefore
    obtain ⟨answer, hanswer, rfl⟩ := List.mem_map.mp hbefore
    obtain ⟨old, new, hold, hnew, herased⟩ := hedited.each answer hanswer
    obtain rfl := Option.some.inj (hinner.symm.trans hnew)
    have hnothing := Selector.locate_erase hlast (hkeyed.get? hold)
    rw [herased] at hnothing
    dsimp only at hnothing
    rw [hnothing] at hbelow
    cases hbelow
  · rw [herror] at ha
    obtain ⟨parent, hparent, -⟩ := mem_picks_concat.mp ha
    dsimp only at hparent
    rw [hnil] at hparent
    cases hparent

/-- Erasing leaves nothing behind, unless the last selector is an index or a root filter.
The path counts no location afterwards, whatever filters it has, and to erase it once more
changes nothing and counts nothing. -/
theorem erase_again {path : Path} {last : Selector} (hlast : path.selectors.getLast? = some last)
    (htakes : last.TakesAll) {root : Value} (hkeyed : root.Keyed) :
    path.count (path.erase root).1 = 0
      ∧ path.erase (path.erase root).1 = ((path.erase root).1, 0) := by
  obtain ⟨parents, hselectors⟩ := List.getLast?_eq_some_iff.mp hlast
  have hnil := picks_erase hselectors htakes hkeyed
  have hcount : path.count (path.erase root).1 = 0 := by
    rw [count_eq_length_picks, hnil, List.length_nil]
  refine ⟨hcount, ?_⟩
  have hkeyed' : (path.erase root).1.Keyed := by
    rw [erase_of_reach hselectors htakes.reach hkeyed]
    exact hkeyed.without _
  rw [erase_of_reach hselectors htakes.reach hkeyed', hcount, located_eq_picks, hnil]
  exact congrArg (·, 0) (Value.without_false _)

/-- The filter asks for the key that is taken away.  The first element loses it and does not
match any more, and the second one has never matched. -/
theorem erase_again_under_filter :
    let path : Path := ⟨"a[{b:1}].b", [⟨.child "a", 1⟩,
      ⟨.elementsMatching [("b", .scalar (.int 1))], 8⟩, ⟨.child "b", 10⟩]⟩
    let root : Value := .compound [("a", .list [.compound [("b", .scalar (.int 1))],
      .compound [("b", .scalar (.int 2))]])]
    let result : Value := .compound [("a", .list [.compound [],
      .compound [("b", .scalar (.int 2))]])]
    path.erase root = (result, 1) ∧ path.count result = 0 ∧ path.erase result = (result, 0) := by
  intro path root result
  have herase : path.erase root = (result, 1) := rfl
  have hkeyed : root.Keyed := by
    refine .compound (by simp [Compound.keys]) (List.forall_mem_singleton.mpr (.list ?_))
    simp [Value.Keyed.compound, Value.Keyed.scalar, Compound.keys]
  have hagain := @erase_again path (.child "b") rfl trivial root hkeyed
  rw [herase] at hagain
  exact ⟨herase, hagain⟩

end Path

end TreeQuery
