import Mathlib
import TreeQuery.Proofs.Path.Ensure
import TreeQuery.Proofs.Value.Growth

/-!
# What making locations leaves behind

To make the locations of a path is to let each selector in turn ensure what it picks.
One selector gives a value at most one new child, and the next selectors go on below
(`Selector.ensure_sprouts`).  So every value of the tree sprouts once at most, and the
tree has grown at every moment, also when a selector picks nothing in the end
(`Path.ensureParentsFrom_grows`).

Hence whatever making locations leaves behind has grown from the tree it was given, and
is accepted by it as a pattern (`Path.grows_of_left`).
-/

namespace TreeQuery

namespace Selector

theorem Grows.sprouts {selector : Selector} {old new : Value} {picked : List Address}
    (h : Grows selector old new picked) : old.Sprouts new picked := by
  have hkey : ∀ {entries : Compound} {name : String} (value : Value),
      Compound.get? entries name = none → (Value.compound entries).Sprouts
        (.compound (Compound.insert entries name value)) [[.key name]] := by
    intro entries name value hnone
    have hnew : name ∉ Compound.keys entries := by
      rw [← Compound.get?_isSome_iff_mem_keys, hnone]
      simp
    refine .of_children ?_ ?_ (by simp)
    · rw [Value.layout, Value.layout, Compound.keys_insert, if_neg hnew]
      exact .keys _ [name]
    · intro step child hchild
      cases step with
      | key other =>
          have hne : name ≠ other := by
            rintro rfl
            rw [Value.child?, hnone] at hchild
            cases hchild
          rw [Value.child?, Compound.get?_insert, if_neg hne]
          exact hchild
      | index position => cases hchild
  have hitem : ∀ {items : List Value} (value : Value) {picked : List Address},
      (∀ address ∈ picked, address.length = 1) →
        (Value.list items).Sprouts (.list (items ++ [value])) picked := by
    intro items value picked hpicked
    refine .of_children ?_ ?_ hpicked
    · rw [Value.layout, Value.layout, List.length_append, List.length_singleton]
      exact .longer items.length
    · intro step child hchild
      cases step with
      | key name => cases hchild
      | index position =>
          have hold : items[position]? = some child := hchild
          obtain ⟨hlt, -⟩ := List.getElem?_eq_some_iff.mp hold
          rw [Value.child?, List.getElem?_append_left hlt, hold]
  cases h with
  | child value hnone => exact hkey value hnone
  | childMatching hnone => exact hkey _ hnone
  | elements value => exact @hitem [] value _ (by simp)
  | elementsMatching => exact hitem _ fun address haddress => length_of_mem_locate haddress

/-- Ensuring what a selector picks makes one child at most. -/
theorem ensure_sprouts (selector : Selector) (value : Value) (s : Supply) :
    value.Sprouts ((selector.ensure value).run s).1.1 ((selector.ensure value).run s).1.2 := by
  by_cases hsettled : selector.Settled value
  · rw [ensure_of_settled hsettled]
    exact .refl value _
  · exact (ensure_of_not_settled hsettled s).sprouts

end Selector

namespace Path

/-! ## One selector after the other -/

theorem ensureEach_grows (selector : Selector) {first root : Value} {addresses : List Address}
    (hsites : root.Sites addresses) (h : first.GrownAbove root addresses) (s : Supply) :
    first.GrownAbove ((selector.ensureEach addresses root).run s).1.1
      ((selector.ensureEach addresses root).run s).1.2 := by
  have hstep : ∀ a ∈ addresses, ∃ old, root.get? a = some old ∧ ∀ s : Supply, True →
      old.Sprouts ((selector.ensure old).run s).1.1 ((selector.ensure old).run s).1.2
        ∧ True := by
    intro a ha
    obtain ⟨old, hold⟩ := hsites.there a ha
    exact ⟨old, hold, fun s _ => ⟨selector.ensure_sprouts old s, trivial⟩⟩
  obtain ⟨hedited, -⟩ := Value.editEach_apart hsites.apart hstep s trivial
  rw [run_ensureEach]
  exact h.edited hedited

/-- Whether the parents are found or not, the tree has grown.  Nothing has changed at the
parents that are found. -/
theorem ensureParentsFrom_grows {selectors : List Selector} {last : Selector} {first : Value} :
    ∀ (ordinal : Nat) {found : List Address} {root : Value}, root.Sites found →
      first.GrownAbove root found →
        first.GrowsTo (ensureParentsFrom ordinal (selectors ++ [last]) found root).1
          ∧ ∀ parents,
            (ensureParentsFrom ordinal (selectors ++ [last]) found root).2 = .ok parents →
              first.GrownAbove (ensureParentsFrom ordinal (selectors ++ [last]) found root).1
                parents := by
  induction selectors with
  | nil =>
      intro ordinal found root _ h
      refine ⟨h.grown, fun parents hparents => ?_⟩
      obtain rfl := Except.ok.inj hparents
      exact h
  | cons selector rest ih =>
      intro ordinal found root hsites h
      obtain ⟨s, hstep⟩ := ensureParentsFrom_cons ordinal selector last rest found root
      have hnext := ensureEach_sites selector hsites s
      have hgrown := ensureEach_grows selector hsites h s
      rw [List.cons_append, hstep]
      generalize ((selector.ensureEach found root).run s).1 = outcome at hnext hgrown
      obtain ⟨tree, picked⟩ := outcome
      cases picked with
      | nil => exact ⟨hgrown.grown, nofun⟩
      | cons start others => exact ih (ordinal + 1) hnext hgrown

/-! ## The whole path -/

theorem ensureParents_grows (path : Path) (root : Value) :
    root.GrowsTo (path.ensureParents root).1 := by
  rcases path.selectors_cases with hnil | ⟨selectors, last, hselectors⟩
  · rw [ensureParents_of_nil hnil]
    exact .refl root
  · have hroot : root.Sites [[]] := Value.sites_singleton (Value.get?_nil root)
    rw [ensureParents, hselectors]
    exact (ensureParentsFrom_grows 0 hroot (.refl root [[]])).1

theorem ensure_grows (path : Path) (root : Value) (supply : Supply) :
    root.GrowsTo ((path.ensure root).run supply).1.1 := by
  rcases path.selectors_cases with hnil | ⟨selectors, last, hselectors⟩
  · rw [run_ensure_of_nil hnil]
    exact .refl root
  · have hroot : root.Sites [[]] := Value.sites_singleton (Value.get?_nil root)
    obtain ⟨hgrows, hparents⟩ :=
      @ensureParentsFrom_grows selectors last root 0 [[]] root hroot (.refl root [[]])
    rw [run_ensure hselectors, hselectors]
    generalize houtcome : ensureParentsFrom 0 (selectors ++ [last]) [[]] root = outcome
      at hgrows hparents
    obtain ⟨grown, failed | found⟩ := outcome
    · exact hgrows
    · have hsites := ensureParentsFrom_sites hroot houtcome
      exact (ensureEach_grows last hsites (hparents found rfl) supply).grown

/-- A write can only fail in ensuring the parents. -/
theorem ensureParents_of_write_error {path : Path} {root after : Value} {failure : NotFound}
    {supply supply' : Supply}
    (h : (path.write root).run supply = ((after, .error failure), supply')) :
    path.ensureParents root = (after, .error failure) := by
  rw [write] at h
  generalize path.ensureParents root = outcome at h ⊢
  obtain ⟨grown, failed | found⟩ := outcome
  · cases hlast : path.selectors.getLast? with
    | none =>
        rw [hlast] at h
        cases h
    | some last =>
        rw [hlast] at h
        cases h
        rfl
  · cases hlast : path.selectors.getLast? with
    | none =>
        rw [hlast] at h
        cases h
    | some last =>
        rw [hlast] at h
        cases h

/-- A write that fails has made what its parents need, and nothing else. -/
theorem write_of_error {path : Path} {root after : Value} {failure : NotFound}
    {supply supply' : Supply}
    (h : (path.write root).run supply = ((after, .error failure), supply')) :
    after = (path.ensureParents root).1 := by
  rw [ensureParents_of_write_error h]

/-- A tree that is left when locations of a path were made in a given one, with success or
without. -/
inductive Left (path : Path) (root : Value) : Value → Prop where
  /-- The parents of what the path picks were ensured. -/
  | parents : Left path root (path.ensureParents root).1
  /-- All that the path picks was ensured. -/
  | ensured (supply : Supply) : Left path root ((path.ensure root).run supply).1.1
  /-- A write has failed. -/
  | unwritten {after : Value} {failure : NotFound} {supply supply' : Supply} :
      (path.write root).run supply = ((after, .error failure), supply') → Left path root after

/-- Making locations only lets the tree grow.  Every location is still there: leaves are
the same, new keys come after the old ones, and a list has at most one new element, at its
end.  So the old tree accepts the new one, unless a number in it is missing. -/
theorem grows_of_left {path : Path} {root after : Value} (h : Left path root after) :
    root.GrowsTo after
      ∧ (root.Keyed → root.isNaNFree = true → root.accepts after = true) := by
  have hgrows : root.GrowsTo after := by
    cases h with
    | parents => exact path.ensureParents_grows root
    | ensured supply => exact path.ensure_grows root supply
    | unwritten hwrite =>
        rw [write_of_error hwrite]
        exact path.ensureParents_grows root
  exact ⟨hgrows, fun hkeyed hnumbers => hgrows.accepts hkeyed hnumbers⟩

/-- The write fails at the second brackets, since the element that was made for the filter
is no list.  That element stays. -/
theorem grows_of_left_by_failure :
    let path : Path := ⟨"a[{b:1}][].c", [⟨.child "a", 1⟩,
      ⟨.elementsMatching [("b", .scalar (.int 1))], 8⟩, ⟨.elements, 10⟩, ⟨.child "c", 12⟩]⟩
    let root : Value := .compound [("a", .list [.list []])]
    let after : Value := .compound [("a", .list [.list [],
      .compound [("b", .scalar (.int 1))]])]
    Left path root after ∧ root.GrowsTo after ∧ root.accepts after = true := by
  intro path root after
  have hwrite : (path.write root).run (.always (.list []))
      = ((after, .error ⟨"a[{b:1}][]"⟩), .always (.list [])) := by cbv
  have hkeyed : root.Keyed := by
    refine .compound (by simp [Compound.keys]) (List.forall_mem_singleton.mpr (.list ?_))
    exact List.forall_mem_singleton.mpr (.list (List.forall_mem_nil _))
  obtain ⟨hgrows, haccepts⟩ := grows_of_left (.unwritten hwrite)
  exact ⟨.unwritten hwrite, hgrows, haccepts hkeyed rfl⟩

end Path

end TreeQuery
