import TreeQuery.Proofs.Path.Ensure
import TreeQuery.Proofs.Path.Erase

/-!
# Locations in the order of the document

Every search goes through a tree from its beginning to its end.  Of two locations that it
finds, the first one *precedes* the second: they part at two elements of one list, and the
first goes on at the earlier element (`Address.Precedes`).  So they differ, and none of
them is above the other.  Two keys of a compound never come into it, since a selector picks
one key at most.

The order carries over to whatever is below two locations.  So the picks of each selector
are in order when those of the selectors before it are, also when it makes some of them:
a new element comes last (`Selector.ensure_sorted`).

All searches of a path are such searches, and edits that make nothing enter the very
locations that reading finds (`Path.locations_ordered`).
-/

namespace TreeQuery

namespace Address

/-- The addresses part at two elements of one list, and the first goes on at the earlier
element. -/
def Precedes (first second : Address) : Prop :=
  ∃ (above : Address) (i j : Nat), i < j ∧ above ++ [.index i] <+: first
    ∧ above ++ [.index j] <+: second

theorem Precedes.disjoint {first second : Address} (h : Precedes first second) :
    Disjoint first second := by
  obtain ⟨above, i, j, hlt, ⟨below, rfl⟩, ⟨below', rfl⟩⟩ := h
  have helements : Disjoint (above ++ [.index i]) (above ++ [.index j]) := by
    refine disjoint_append_left_iff.mpr (disjoint_of_length_eq rfl fun heq => ?_)
    exact Nat.ne_of_lt hlt (Step.index.inj (List.cons.inj heq).1)
  exact helements.append below below'

theorem precedes_index {i j : Nat} (h : i < j) : Precedes [.index i] [.index j] :=
  ⟨[], i, j, h, List.prefix_refl _, List.prefix_refl _⟩

theorem carries_precedes : Carries Precedes := by
  constructor
  · rintro first second ⟨above, i, j, hlt, hfirst, hsecond⟩ below below'
    exact ⟨above, i, j, hlt, hfirst.trans (List.prefix_append first below),
      hsecond.trans (List.prefix_append second below')⟩
  · rintro first second ⟨above, i, j, hlt, hfirst, hsecond⟩ start
    refine ⟨start ++ above, i, j, hlt, ?_, ?_⟩
    · rw [List.append_assoc]
      exact (List.prefix_append_right_inj start).mpr hfirst
    · rw [List.append_assoc]
      exact (List.prefix_append_right_inj start).mpr hsecond

/-- The addresses are distinct, none leads to or below another one, and they come in the
order of the document. -/
structure Ordered (addresses : List Address) : Prop where
  distinct : addresses.Nodup
  apart : addresses.Pairwise Disjoint
  sorted : addresses.Pairwise Precedes

theorem ordered_of_sorted {addresses : List Address} (h : addresses.Pairwise Precedes) :
    Ordered addresses := by
  have hapart := h.imp Precedes.disjoint
  refine ⟨hapart.imp ?_, hapart, h⟩
  rintro first second hdisjoint rfl
  exact hdisjoint.1 (List.prefix_refl first)

end Address

namespace Selector

theorem sorted_locate (selector : Selector) (value : Value) :
    (selector.locate value).Pairwise Address.Precedes :=
  selector.pairwise_locate (fun _ _ hlt => Address.precedes_index hlt) value

/-- What ensuring answers is in order, whether it made something or not. -/
theorem ensure_sorted (selector : Selector) (value : Value) (s : Supply) :
    ((selector.ensure value).run s).1.2.Pairwise Address.Precedes := by
  by_cases hsettled : selector.Settled value
  · rw [ensure_of_settled hsettled]
    exact sorted_locate selector value
  · have hgrows := ensure_of_not_settled hsettled s
    generalize ((selector.ensure value).run s).1 = outcome at hgrows ⊢
    obtain ⟨grown, picked⟩ := outcome
    dsimp only at hgrows ⊢
    cases hgrows with
    | child => exact List.pairwise_singleton _ _
    | childMatching => exact List.pairwise_singleton _ _
    | elements => exact List.pairwise_singleton _ _
    | elementsMatching => exact sorted_locate _ _

end Selector

namespace Path

/-! ## Reading -/

theorem sorted_picks (selectors : List Selector) (value : Value) :
    (picks selectors value).Pairwise Address.Precedes := by
  induction selectors generalizing value with
  | nil => exact List.pairwise_singleton _ _
  | cons selector rest ih =>
      exact Value.pairwise_searchAt Address.carries_precedes (selector.sorted_locate value) ih

/-! ## Ensuring -/

theorem ensureEach_sorted (selector : Selector) {addresses : List Address} {root : Value}
    (hsites : root.Sites addresses) (hsorted : addresses.Pairwise Address.Precedes) (s : Supply) :
    ((selector.ensureEach addresses root).run s).1.2.Pairwise Address.Precedes := by
  have hstep : ∀ a ∈ addresses, ∃ old, root.get? a = some old ∧ ∀ s : Supply, True →
      ((selector.ensure old).run s).1.2.Pairwise Address.Precedes ∧ True := by
    intro a ha
    obtain ⟨old, hold⟩ := hsites.there a ha
    exact ⟨old, hold, fun s _ => ⟨selector.ensure_sorted old s, trivial⟩⟩
  have hedited : Value.EditedEach (fun _ _ picked => picked.Pairwise Address.Precedes) addresses
      root ((Value.editEach selector.ensure addresses root).run s).1.1
      ((Value.editEach selector.ensure addresses root).run s).1.2 :=
    (Value.editEach_apart hsites.apart hstep s trivial).1
  rw [run_ensureEach]
  refine Address.carries_precedes.pairwise_flatMap ?_ fun answer hanswer => ?_
  · rw [hedited.places]
    exact hsorted
  · obtain ⟨-, -, -, -, hpicked⟩ := hedited.each answer hanswer
    exact hpicked

/-- One selector after the other, the parents stay in order. -/
theorem ensureParentsFrom_sorted {selectors : List Selector} {last : Selector} :
    ∀ {ordinal : Nat} {found parents : List Address} {root grown : Value}, root.Sites found →
      found.Pairwise Address.Precedes →
      ensureParentsFrom ordinal (selectors ++ [last]) found root = (grown, .ok parents) →
        parents.Pairwise Address.Precedes := by
  induction selectors with
  | nil =>
      intro ordinal found parents root grown _ hsorted h
      obtain ⟨-, hfound⟩ := Prod.mk.inj h
      exact Except.ok.inj hfound ▸ hsorted
  | cons selector rest ih =>
      intro ordinal found parents root grown hsites hsorted h
      obtain ⟨s, hstep⟩ := ensureParentsFrom_cons ordinal selector last rest found root
      have hnext := ensureEach_sites selector hsites s
      have hpicked := ensureEach_sorted selector hsites hsorted s
      rw [List.cons_append, hstep] at h
      generalize ((selector.ensureEach found root).run s).1 = outcome at h hnext hpicked
      obtain ⟨tree, picked⟩ := outcome
      cases picked with
      | nil => cases (Prod.mk.inj h).2
      | cons first others => exact ih hnext hpicked h

theorem ensureParents_sorted {path : Path} {root grown : Value} {parents : List Address}
    (h : path.ensureParents root = (grown, .ok parents)) :
    parents.Pairwise Address.Precedes := by
  rcases path.selectors_cases with hnil | ⟨selectors, last, hselectors⟩
  · rw [ensureParents_of_nil hnil] at h
    obtain ⟨-, hparents⟩ := Prod.mk.inj h
    exact Except.ok.inj hparents ▸ List.pairwise_singleton _ _
  · rw [ensureParents_eq_ok, hselectors] at h
    exact ensureParentsFrom_sorted (Value.sites_singleton (Value.get?_nil root))
      (List.pairwise_singleton _ _) h

theorem ensure_sorted {path : Path} {root grown : Value} {found : List Address}
    {supply supply' : Supply} (h : (path.ensure root).run supply = ((grown, .ok found), supply')) :
    found.Pairwise Address.Precedes := by
  rcases path.selectors_cases with hnil | ⟨selectors, last, hselectors⟩
  · rw [run_ensure_of_nil hnil] at h
    obtain ⟨hanswer, -⟩ := Prod.mk.inj h
    exact Except.ok.inj (Prod.mk.inj hanswer).2 ▸ List.pairwise_singleton _ _
  · rw [run_ensure hselectors] at h
    generalize hparents : ensureParentsFrom 0 path.selectors [[]] root = outcome at h
    obtain ⟨tree, failed | parents⟩ := outcome
    · cases h
    · have hensured : path.ensureParents root = (tree, .ok parents) :=
        ensureParents_eq_ok.mpr hparents
      obtain ⟨hanswer, -⟩ := Prod.mk.inj h
      obtain ⟨-, hfound⟩ := Prod.mk.inj hanswer
      rw [← Except.ok.inj hfound]
      exact ensureEach_sorted last (ensureParents_sites hensured) (ensureParents_sorted hensured)
        supply

/-! ## All searches of a path -/

/-- Whatever locations a path finds in a tree are in the order of the document, and none of
them is another one or below it.  This holds of what reading finds, of the locations and
the parents that ensuring finds or makes, and of the parents that erasing enters.  In any
tree, erasing enters exactly the locations that reading finds, in the same order, for the
selectors of the path and for any others. -/
theorem locations_ordered (path : Path) (root : Value) :
    (∀ found, path.locate root = .ok found → Address.Ordered found)
      ∧ (∀ supply grown found supply',
          (path.ensure root).run supply = ((grown, .ok found), supply') → Address.Ordered found)
      ∧ (∀ grown parents,
          path.ensureParents root = (grown, .ok parents) → Address.Ordered parents)
      ∧ (∀ parents, enterFrom root path.selectors.dropLast [[]] = some parents →
          Address.Ordered parents)
      ∧ enterFrom root path.selectors [[]] = (path.locate root).toOption
      ∧ ∀ selectors, enterFrom root selectors [[]]
          = (locateFrom root 0 selectors [[]]).toOption := by
  have hlocate : ∀ selectors found, locateFrom root 0 selectors [[]] = .ok found →
      Address.Ordered found := by
    intro selectors found h
    have hpicks := picks_of_locateFrom [] 0 h
    rw [List.nil_append] at hpicks
    rw [hpicks]
    exact Address.ordered_of_sorted (sorted_picks selectors root)
  refine ⟨fun found h => ?_, fun _ _ _ _ h => Address.ordered_of_sorted (ensure_sorted h),
    fun _ _ h => Address.ordered_of_sorted (ensureParents_sorted h), fun parents h => ?_,
    enterFrom_eq_locate path root, fun selectors => enterFrom_eq_toOption root selectors 0 [[]]⟩
  · rw [locate] at h
    cases hfrom : locateFrom root 0 path.selectors [[]] with
    | error ordinal => cases hfrom ▸ h
    | ok addresses =>
        rw [hfrom] at h
        exact Except.ok.inj h ▸ hlocate _ _ hfrom
  · rw [enterFrom_eq_toOption root _ 0] at h
    cases hfrom : locateFrom root 0 path.selectors.dropLast [[]] with
    | error ordinal => cases hfrom ▸ h
    | ok addresses =>
        rw [hfrom] at h
        exact Option.some.inj h ▸ hlocate _ _ hfrom

/-- In the first list a match is made at its end.  The locations part at elements of the
outer list or of an inner one. -/
theorem locations_ordered_where_made :
    let matched : Value := .compound [("c", .scalar (.int 1))]
    let path : Path := ⟨"a[].b[{c:1}]", [⟨.child "a", 1⟩, ⟨.elements, 3⟩, ⟨.child "b", 5⟩,
      ⟨.elementsMatching [("c", .scalar (.int 1))], 12⟩]⟩
    let root : Value := .compound [("a", .list [.compound [("b", .list [.list []])],
      .compound [("b", .list [matched, matched])]])]
    let place (i j : Nat) : Address := [.key "a", .index i, .key "b", .index j]
    (path.ensureValue root (.list [])).2 = .ok [place 0 1, place 1 0, place 1 1]
      ∧ Address.Ordered [place 0 1, place 1 0, place 1 1] := by
  intro matched path root place
  obtain ⟨-, hensure, -⟩ := locations_ordered path root
  exact ⟨rfl, hensure (.always (.list [])) _ _ _ rfl⟩

end Path

end TreeQuery
