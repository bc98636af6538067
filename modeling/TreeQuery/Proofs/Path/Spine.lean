import Mathlib
import TreeQuery.Proofs.Path.Patterns
import TreeQuery.Proofs.Path.Write

/-!
# Trees made from nothing

A key and `[]` can pick something in every container of their kind, since they make it
where it is missing.  So a path of such selectors always succeeds in the empty container
of its first one, and all that is in the tree afterwards was made for it.

The tree is a *spine*: around the value there is one container for each selector, of the
kind that this selector needs, with one child (`Path.Spine`).  Ensuring and writing go down
from the root.  Each step fills the empty container that the step before it has left, and
leaves the empty container of the next selector in it (`Path.ensureParentsFrom_spine`).
-/

namespace TreeQuery

/-! ## One container -/

namespace Selector

/-- The selectors that always make what they pick. -/
def isMaker : Selector → Bool
  | .child _ | .elements => true
  | _ => false

/-- The container that a selector makes around a value, with the step back to it. -/
inductive Encloses : Selector → Value → Value → Step → Prop where
  /-- A key makes a compound with one entry. -/
  | child (name : String) (inner : Value) :
      Encloses (.child name) inner (.compound [(name, inner)]) (.key name)
  /-- All elements are one element at first. -/
  | elements (inner : Value) : Encloses .elements inner (.list [inner]) (.index 0)

theorem encloses_of_isMaker {selector : Selector} (h : selector.isMaker = true) (inner : Value) :
    ∃ outer step, selector.Encloses inner outer step := by
  cases selector with
  | child name => exact ⟨_, _, .child name inner⟩
  | elements => exact ⟨_, _, .elements inner⟩
  | childMatching name pattern => cases h
  | rootMatching pattern => cases h
  | element index => cases h
  | elementsMatching pattern => cases h

namespace Encloses

variable {selector : Selector} {inner outer : Value} {step : Step}

theorem child?_eq (h : selector.Encloses inner outer step) : outer.child? step = some inner := by
  cases h with
  | child name => simp [Value.child?, Compound.get?]
  | elements => rfl

theorem locate_eq (h : selector.Encloses inner outer step) : selector.locate outer = [[step]] := by
  cases h with
  | child name => simp [locate, Compound.get?]
  | elements => rfl

/-- The value inside can be replaced. -/
theorem putChild (h : selector.Encloses inner outer step) (new : Value) :
    selector.Encloses new (outer.putChild step new) step := by
  cases h with
  | child name =>
      have hput : (Value.compound [(name, inner)]).putChild (.key name) new
          = .compound [(name, new)] := by
        simp [Value.putChild, Compound.get?, Compound.insert]
      rw [hput]
      exact .child name new
  | elements => exact .elements new

/-- In an empty container, ensuring puts the next value of the supply into the one that is
made around it. -/
theorem run_ensure {s : Supply} (h : selector.Encloses (s.value s.used) outer step) :
    (selector.ensure selector.container).run s = ((outer, [[step]]), s.rest) := by
  cases h with
  | child name => rfl
  | elements => rfl

/-- So does writing. -/
theorem run_write {s : Supply} (h : selector.Encloses (s.value s.used) outer step) :
    (selector.write selector.container).run s = ((outer, 1), s.rest) := by
  cases h with
  | child name => rfl
  | elements => rfl

/-- The container is of the kind that the selector needs, and holds nothing else. -/
theorem shape (h : selector.Encloses inner outer step) :
    outer.kind = selector.container.kind ∧ outer.size? = some 1 := by
  cases h with
  | child name => exact ⟨rfl, rfl⟩
  | elements => exact ⟨rfl, rfl⟩

end Encloses

end Selector

namespace Path

/-! ## Spines -/

/-- The containers that selectors make around a value, one in the other, with the way down
to it. -/
inductive Spine (value : Value) : List Selector → Value → Address → Prop where
  /-- Without selectors there is only the value. -/
  | nil : Spine value [] value []
  /-- The first selector makes the outermost container. -/
  | cons {selector : Selector} {rest : List Selector} {inner outer : Value} {step : Step}
      {below : Address} : selector.Encloses inner outer step → Spine value rest inner below →
      Spine value (selector :: rest) outer (step :: below)

namespace Spine

variable {value tree : Value} {selectors : List Selector} {place : Address}

theorem get?_eq (h : Spine value selectors tree place) : tree.get? place = some value := by
  induction h with
  | nil => exact Value.get?_nil value
  | cons hencloses _ ih => rw [Value.get?, hencloses.child?_eq, Option.bind_some, ih]

theorem picks_eq (h : Spine value selectors tree place) : picks selectors tree = [place] := by
  induction h with
  | nil => rfl
  | @cons selector rest inner outer step below hencloses _ ih =>
      have hinner : outer.get? [step] = some inner := by
        rw [Value.get?, hencloses.child?_eq, Option.bind_some, Value.get?_nil]
      rw [picks, hencloses.locate_eq, List.flatMap_singleton, Value.searchAt_of_get? _ hinner, ih]
      rfl

/-- The value at the end can be replaced. -/
theorem put (h : Spine value selectors tree place) (new : Value) :
    Spine new selectors (tree.put place new) place := by
  induction h with
  | nil =>
      rw [Value.put_nil]
      exact .nil
  | cons hencloses _ ih =>
      simp only [Value.put, hencloses.child?_eq]
      exact .cons (hencloses.putChild _) ih

/-- A spine can go on where another one ends. -/
theorem append {more : List Selector} {last : Value} {below : Address}
    (h : Spine value selectors tree place) (h' : Spine last more value below) :
    Spine last (selectors ++ more) tree (place ++ below) := by
  induction h with
  | nil => exact h'
  | cons hencloses _ ih => exact .cons hencloses ih

/-- There is one container for each selector, of the kind that it needs, and no other child
in it. -/
theorem container_at (h : Spine value selectors tree place) {ordinal : Nat} {selector : Selector}
    (hselector : selectors[ordinal]? = some selector) :
    ∃ container, tree.get? (place.take ordinal) = some container
      ∧ container.kind = selector.container.kind ∧ container.size? = some 1 := by
  induction h generalizing ordinal with
  | nil => cases hselector
  | @cons first rest inner outer step below hencloses _ ih =>
      cases ordinal with
      | zero =>
          obtain rfl : first = selector := Option.some.inj hselector
          exact ⟨outer, Value.get?_nil outer, hencloses.shape⟩
      | succ ordinal =>
          obtain ⟨container, hcontainer, hshape⟩ := ih hselector
          refine ⟨container, ?_, hshape⟩
          rw [List.take_succ_cons, Value.get?, hencloses.child?_eq, Option.bind_some, hcontainer]

theorem length_eq (h : Spine value selectors tree place) : place.length = selectors.length := by
  induction h with
  | nil => rfl
  | cons _ _ ih => rw [List.length_cons, List.length_cons, ih]

end Spine

/-! ## Making a spine -/

/-- In an empty container a selector makes what it encloses the next value with. -/
theorem run_ensureEach_container {selector : Selector} {tree outer : Value} {above : Address}
    {step : Step} {s : Supply} (hempty : tree.get? above = some selector.container)
    (hencloses : selector.Encloses (s.value s.used) outer step) :
    ((selector.ensureEach [above] tree).run s).1 = (tree.put above outer, [above ++ [step]]) := by
  rw [run_ensureEach, Value.run_editEach_cons _ _ hempty, hencloses.run_ensure]
  rfl

/-- From an empty container on, every selector but the last encloses the empty container of
the next one. -/
theorem ensureParentsFrom_spine (rest : List Selector) :
    ∀ {first : Selector} (ordinal : Nat) {above : Address} {tree : Value},
      (∀ selector ∈ first :: rest, selector.isMaker = true) →
      tree.get? above = some first.container → ∃ selectors last inner below,
        first :: rest = selectors ++ [last] ∧ Spine last.container selectors inner below
        ∧ ensureParentsFrom ordinal (first :: rest) [above] tree
            = (tree.put above inner, .ok [above ++ below]) := by
  induction rest with
  | nil =>
      intro first ordinal above tree _ hempty
      refine ⟨[], first, first.container, [], rfl, .nil, ?_⟩
      rw [Value.put_get? hempty, List.append_nil]
      rfl
  | cons next rest ih =>
      intro first ordinal above tree hmakers hempty
      obtain ⟨hfirst, hothers⟩ := List.forall_mem_cons.mp hmakers
      obtain ⟨outer, step, hencloses⟩ := Selector.encloses_of_isMaker hfirst next.container
      have hmade := @run_ensureEach_container first tree outer above step
        (.always next.container) hempty hencloses
      have hnext : (tree.put above outer).get? (above ++ [step]) = some next.container := by
        rw [Value.get?_put_below outer [step] hempty, Value.get?, hencloses.child?_eq,
          Option.bind_some, Value.get?_nil]
      obtain ⟨selectors, last, inner, below, hsplit, hspine, hrun⟩ :=
        ih (ordinal + 1) hothers hnext
      refine ⟨first :: selectors, last, outer.putChild step inner, step :: below, ?_, ?_, ?_⟩
      · rw [hsplit, List.cons_append]
      · exact .cons (hencloses.putChild inner) hspine
      · have hput : (tree.put above outer).put (above ++ [step]) inner
            = tree.put above (outer.putChild step inner) := by
          rw [Value.put_append [step] inner (Value.get?_put_self outer hempty),
            Value.put_put_self]
          simp only [Value.put, hencloses.child?_eq]
        rw [ensureParentsFrom]
        generalize (first.ensureEach [above] tree).run (.always next.container) = outcome at hmade
        obtain ⟨result, s⟩ := outcome
        dsimp only at hmade
        rw [hmade]
        dsimp only
        rw [hrun, hput, List.append_assoc]
        rfl

/-- A path of keys and `[]` that starts from nothing always succeeds.  In the empty container
of its first selector, ensuring it with copies of a value makes one location, and writing
the value makes one change.  Both leave the same tree, which is the spine of the path
around the value, and the path reads exactly the value there. -/
theorem makes_spine {text : String} {limit : Nat} {path : Path}
    (hparse : parse text limit = .ok path)
    (hmakers : ∀ selector ∈ path.selectors, selector.isMaker = true) (value : Value) :
    ∃ first, path.selectors.head? = some first ∧ ∃ tree place,
      path.ensureValue first.container value = (tree, .ok [place])
      ∧ path.writeValue first.container value = (tree, .ok 1)
      ∧ path.get tree = .ok [value] ∧ tree.get? place = some value
      ∧ Spine value path.selectors tree place
      ∧ place.length = path.selectors.length
      ∧ ∀ ordinal selector, path.selectors[ordinal]? = some selector →
          ∃ container, tree.get? (place.take ordinal) = some container
            ∧ container.kind = selector.container.kind ∧ container.size? = some 1 := by
  obtain ⟨first, rest, hcons, -⟩ := selectors_of_parse hparse
  refine ⟨first, by rw [hcons, List.head?_cons], ?_⟩
  obtain ⟨selectors, last, inner, above, hsplit, hspine, hrun⟩ :=
    ensureParentsFrom_spine rest 0 (hcons ▸ hmakers) (Value.get?_nil first.container)
  rw [← hcons] at hsplit hrun
  rw [Value.put_nil, List.nil_append] at hrun
  -- The last selector encloses the value.
  have hlast : last.isMaker = true := hmakers last (by simp [hsplit])
  obtain ⟨outer, step, hencloses⟩ := Selector.encloses_of_isMaker hlast value
  have hwhole : Spine value path.selectors (inner.put above outer) (above ++ [step]) := by
    rw [hsplit]
    exact (hspine.put outer).append (.cons hencloses .nil)
  refine ⟨inner.put above outer, above ++ [step], ?_, ?_, ?_, hwhole.get?_eq, hwhole,
    hwhole.length_eq, fun _ _ => hwhole.container_at⟩
  · have hmade := @run_ensureEach_container last inner outer above step (.always value)
      hspine.get?_eq hencloses
    rw [ensureValue, run_ensure hsplit, hrun]
    dsimp only
    rw [hmade]
  · have hwritten : (Value.editEach last.write [above] inner).run (.always value)
        = ((inner.put above outer, [(above, 1)]), (Supply.always value).rest) := by
      rw [Value.run_editEach_cons _ _ hspine.get?_eq,
        @Selector.Encloses.run_write last outer step (.always value) hencloses]
      rfl
    rw [writeValue_of_concat hsplit, ensureParents_eq_ok.mpr hrun]
    dsimp only
    rw [hwritten]
    rfl
  · rw [get_of_picks (hwhole.picks_eq ▸ List.cons_ne_nil _ _), hwhole.picks_eq]
    rw [List.filterMap_cons_some hwhole.get?_eq, List.filterMap_nil]

/-- Keys and lists by turns, and then one list in the other. -/
theorem makes_spine_of_lists :
    let path : Path := ⟨"a[].b[][]", [⟨.child "a", 1⟩, ⟨.elements, 3⟩, ⟨.child "b", 5⟩,
      ⟨.elements, 7⟩, ⟨.elements, 9⟩]⟩
    let value : Value := .scalar (.int 1)
    let tree : Value := .compound [("a", .list [.compound [("b", .list [.list [value]])]])]
    parse path.text = .ok path
      ∧ path.writeValue (.compound []) value = (tree, .ok 1)
      ∧ path.get tree = .ok [value] := by
  intro path value tree
  have hparse : parse path.text = .ok path := by cbv
  obtain ⟨first, hfirst, made, place, -, hwrite, hget, -⟩ :=
    makes_spine hparse (by decide) value
  obtain rfl : .child "a" = first := Option.some.inj hfirst
  have hmade : path.writeValue (.compound []) value = (tree, .ok 1) := rfl
  obtain rfl : made = tree := (Prod.mk.inj (hwrite.symm.trans hmade)).1
  exact ⟨hparse, hmade, hget⟩

end Path

end TreeQuery
