import Mathlib
import TreeQuery.Proofs.Path.Erase
import TreeQuery.Proofs.Path.Insert
import TreeQuery.Proofs.Path.Patterns
import TreeQuery.Proofs.Selector.Alike

/-!
# Paths and trees that are alike

A path locates the same addresses in trees that are alike, and fails in them at the same
selector.  Every edit by a path leaves trees that are alike, with the same answer or the
same error.  Each of these laws follows the definition of its operation, from one selector
to all of them.

So equality of trees is a congruence for everything that a path can do: the order of keys
and the sign of a zero never matter (`operations_congr`).  Patterns with a missing number
are left out, since a copy of such a pattern differs from every tree, itself included.
-/

namespace TreeQuery

/-- The same failure, or answers that are related. -/
inductive Agree {ε α β : Type} (r : α → β → Prop) : Except ε α → Except ε β → Prop where
  | ok {a : α} {b : β} : r a b → Agree r (.ok a) (.ok b)
  | error (failure : ε) : Agree r (.error failure) (.error failure)

theorem Agree.imp {ε α β : Type} {r q : α → β → Prop} {first : Except ε α} {second : Except ε β}
    (h : Agree r first second) (himp : ∀ a b, r a b → q a b) : Agree q first second := by
  cases h with
  | ok hrelated => exact .ok (himp _ _ hrelated)
  | error failure => exact .error failure

/-- Edits have left trees that are the same, with the same answer. -/
structure SameEdit {α : Type} (first second : Value × α) : Prop where
  /-- The trees are the same. -/
  tree : first.1.Same second.1
  /-- The answers are. -/
  answer : first.2 = second.2

theorem AlikeEdit.same {α : Type} {first second : Value × α} (h : AlikeEdit first second) :
    SameEdit first second :=
  ⟨h.1.same, h.2⟩

namespace Path

variable {root root' : Value}

/-! ## Locating -/

theorem locateEach_alike (h : root.Alike root') (selector : Selector) (addresses : List Address) :
    selector.locateEach root addresses = selector.locateEach root' addresses := by
  refine List.flatMap_congr fun address _ => ?_
  obtain ⟨hold, hold'⟩ | ⟨old, old', hold, hold', halike⟩ := optionRel_cases (h.get? address)
  · rw [hold, hold']
  · rw [hold, hold']
    dsimp only
    rw [Selector.locate_alike halike selector]

theorem locateFrom_alike (h : root.Alike root') (selectors : List Selector) :
    ∀ (ordinal : Nat) (found : List Address),
      locateFrom root ordinal selectors found = locateFrom root' ordinal selectors found := by
  induction selectors with
  | nil => exact fun _ _ => rfl
  | cons selector rest ih =>
      intro ordinal found
      rw [locateFrom, locateFrom, locateEach_alike h]
      split
      · rfl
      · exact ih _ _

/-- The values at given addresses are alike one by one. -/
theorem filterMap_get?_alike (h : root.Alike root') (addresses : List Address) :
    List.Forall₂ Value.Alike (addresses.filterMap root.get?) (addresses.filterMap root'.get?) := by
  have hpaired : List.Forall₂ (fun address address' : Address => address = address')
      addresses addresses := List.forall₂_same.mpr fun _ _ => rfl
  refine List.rel_filterMap (fun address address' heq => ?_) hpaired
  subst heq
  exact h.get? address

theorem get_alike (h : root.Alike root') (path : Path) :
    Agree (List.Forall₂ Value.Alike) (path.get root) (path.get root') := by
  rw [get, get, locate, locate, locateFrom_alike h]
  cases locateFrom root' 0 path.selectors [[]] with
  | ok found => exact .ok (filterMap_get?_alike h found)
  | error ordinal => exact .error _

/-! ## Ensuring -/

theorem container_alike (selector : Selector) :
    selector.container.Alike selector.container := by
  have hcompound : (Value.compound []).Keyed := .compound List.nodup_nil nofun
  have hlist : (Value.list []).Keyed := .list nofun
  cases selector with
  | child name => exact Value.alike_self hcompound rfl
  | childMatching name pattern => exact Value.alike_self hcompound rfl
  | rootMatching pattern => exact Value.alike_self hcompound rfl
  | elements => exact Value.alike_self hlist rfl
  | element index => exact Value.alike_self hlist rfl
  | elementsMatching pattern => exact Value.alike_self hlist rfl

theorem ensureEach_alike {selector : Selector} (hpattern : selector.Numbered)
    (addresses : List Address) (h : root.Alike root') :
    Lockstep.supplied.Rel AlikeEdit (selector.ensureEach addresses root)
      (selector.ensureEach addresses root') := by
  have heach := Lockstep.supplied.editEach
    (fun old old' hold => Selector.ensure_alike hold hpattern) addresses h
  refine Lockstep.supplied.bind heach fun grown grown' hgrown => ?_
  exact Lockstep.supplied.pure ⟨hgrown.1, by rw [hgrown.2]⟩

theorem ensureParentsFrom_alike : ∀ (selectors : List Selector) (ordinal : Nat)
    (found : List Address) {root root' : Value}, (∀ selector ∈ selectors, selector.Numbered) →
      root.Alike root' → AlikeEdit (ensureParentsFrom ordinal selectors found root)
        (ensureParentsFrom ordinal selectors found root')
  | [], _, _, _, _, _, h => ⟨h, rfl⟩
  | [_], _, _, _, _, _, h => ⟨h, rfl⟩
  | selector :: next :: rest, ordinal, found, root, root', hpatterns, h => by
      obtain ⟨hselector, hrest⟩ := List.forall_mem_cons.mp hpatterns
      obtain ⟨hedit, -⟩ := ensureEach_alike hselector found h (.always next.container)
        (.always next.container) (Supply.alike_always (container_alike next))
      rw [ensureParentsFrom, ensureParentsFrom]
      generalize (selector.ensureEach found root).run (Supply.always next.container) = first
        at hedit
      generalize (selector.ensureEach found root').run (Supply.always next.container) = second
        at hedit
      obtain ⟨⟨grown, picked⟩, s⟩ := first
      obtain ⟨⟨grown', picked'⟩, s'⟩ := second
      obtain ⟨hgrown, rfl⟩ : grown.Alike grown' ∧ picked = picked' := hedit
      cases picked with
      | nil => exact ⟨hgrown, rfl⟩
      | cons start others =>
          exact ensureParentsFrom_alike (next :: rest) (ordinal + 1) _ hrest hgrown

section

variable {path : Path} (hpatterns : ∀ selector ∈ path.selectors, selector.Numbered)
  (h : root.Alike root')

include hpatterns h

theorem ensureParents_alike :
    AlikeEdit (path.ensureParents root) (path.ensureParents root') := by
  obtain ⟨hgrown, hanswer⟩ := ensureParentsFrom_alike path.selectors 0 [[]] hpatterns h
  refine ⟨hgrown, ?_⟩
  rw [ensureParents, ensureParents]
  dsimp only
  rw [hanswer]

theorem ensure_alike : Lockstep.supplied.Rel AlikeEdit (path.ensure root) (path.ensure root') := by
  have hparents := ensureParents_alike hpatterns h
  rw [ensure, ensure]
  generalize path.ensureParents root = first at hparents ⊢
  generalize path.ensureParents root' = second at hparents ⊢
  obtain ⟨grown, outcome⟩ := first
  obtain ⟨grown', outcome'⟩ := second
  obtain ⟨hgrown, rfl⟩ : grown.Alike grown' ∧ outcome = outcome' := hparents
  cases hlast : path.selectors.getLast? with
  | none => exact Lockstep.supplied.pure ⟨h, rfl⟩
  | some last =>
      have hpattern := hpatterns last (List.mem_of_getLast? hlast)
      cases outcome with
      | error failure => exact Lockstep.supplied.pure ⟨hgrown, rfl⟩
      | ok parents =>
          refine Lockstep.supplied.bind (ensureEach_alike hpattern parents hgrown)
            fun result result' hresult => ?_
          exact Lockstep.supplied.pure ⟨hresult.1, by rw [hresult.2]⟩

theorem write_alike : Lockstep.supplied.Rel AlikeEdit (path.write root) (path.write root') := by
  have hparents := ensureParents_alike hpatterns h
  rw [write, write]
  generalize path.ensureParents root = first at hparents ⊢
  generalize path.ensureParents root' = second at hparents ⊢
  obtain ⟨grown, outcome⟩ := first
  obtain ⟨grown', outcome'⟩ := second
  obtain ⟨hgrown, rfl⟩ : grown.Alike grown' ∧ outcome = outcome' := hparents
  cases path.selectors.getLast? with
  | none => exact Lockstep.supplied.pure ⟨h, rfl⟩
  | some last =>
      cases outcome with
      | error failure => exact Lockstep.supplied.pure ⟨hgrown, rfl⟩
      | ok parents =>
          have heach := Lockstep.supplied.editEach
            (fun old old' hold => Selector.write_alike hold last) parents hgrown
          refine Lockstep.supplied.bind heach fun result result' hresult => ?_
          exact Lockstep.supplied.pure ⟨hresult.1, by rw [hresult.2]⟩

end

/-! ## Erasing -/

theorem erase_alike (h : root.Alike root') (path : Path) :
    AlikeEdit (path.erase root) (path.erase root') := by
  rw [erase, erase, enterFrom_eq_toOption root _ 0, enterFrom_eq_toOption root' _ 0,
    locateFrom_alike h]
  cases path.selectors.getLast? with
  | none => exact ⟨h, rfl⟩
  | some last =>
      cases locateFrom root' 0 path.selectors.dropLast [[]] with
      | error ordinal => exact ⟨h, rfl⟩
      | ok parents =>
          have heach : Lockstep.plain.Rel AlikeEdit
              (Value.editEach (fun value => pure (last.erase value)) parents root)
              (Value.editEach (fun value => pure (last.erase value)) parents root') :=
            Lockstep.plain.editEach (fun old old' hold => Selector.erase_alike hold last) parents h
          exact ⟨heach.1, congrArg total heach.2⟩

/-! ## Putting values into lists -/

theorem insertAt_alike {values values' items items' : List Value}
    (hvalues : List.Forall₂ Value.Alike values values')
    (hitems : List.Forall₂ Value.Alike items items') (position : Int) :
    Agree (List.Forall₂ Value.Alike) (insertAt position values items)
      (insertAt position values' items') := by
  have hfits : Fits position values items ↔ Fits position values' items' := by
    rw [Fits, Fits, hitems.length_eq, ← List.length_eq_zero_iff, hvalues.length_eq,
      List.length_eq_zero_iff]
  by_cases h : Fits position values items
  · rw [insertAt_of_fits h, insertAt_of_fits (hfits.mp h)]
    refine .ok (List.rel_append (List.rel_append ?_ hvalues) ?_)
    · exact List.forall₂_take _ hitems
    · exact List.forall₂_drop _ hitems
  · rw [insertAt_of_not_fits h, insertAt_of_not_fits fun h' => h (hfits.mpr h')]
    exact .error _

theorem insertEach_alike (index : Int) {values values' : List Value}
    (hvalues : List.Forall₂ Value.Alike values values') (targets : List Address) :
    ∀ {root root' : Value}, root.Alike root' →
      AlikeEdit (insertEach index values targets root) (insertEach index values' targets root') := by
  induction targets with
  | nil => exact fun h => ⟨h, rfl⟩
  | cons target rest ih =>
      intro root root' h
      rw [insertEach, insertEach]
      obtain ⟨hold, hold'⟩ | ⟨old, old', hold, hold', halike⟩ := optionRel_cases (h.get? target)
      · rw [hold, hold']
        exact ih h
      · rw [hold, hold']
        cases halike.like with
        | compound => exact ⟨h, rfl⟩
        | scalar =>
            exact ⟨h, congrArg (fun kind => Except.error (EditError.expectedList kind)) halike.kind⟩
        | @list items items' =>
            have hitems := Value.alike_list.mp halike
            have hempty : values.isEmpty = values'.isEmpty := by
              cases hvalues with
              | nil => rfl
              | cons => rfl
            dsimp only
            rw [hitems.length_eq, hempty]
            generalize (if index < 0 then (items'.length : Int) + index + 1 else index) = position
            have hat := insertAt_alike hvalues hitems position
            generalize insertAt position values items = first at hat ⊢
            generalize insertAt position values' items' = second at hat ⊢
            cases hat with
            | error failure => exact ⟨h, rfl⟩
            | ok hgrown =>
                obtain ⟨hresult, hanswer⟩ := ih (h.put target (Value.alike_list.mpr hgrown))
                exact ⟨hresult, by dsimp only; rw [hanswer]⟩

section

variable {path : Path} (hpatterns : ∀ selector ∈ path.selectors, selector.Numbered)
  (h : root.Alike root')

include hpatterns h

theorem ensureValue_alike {value value' : Value} (hvalue : value.Alike value') :
    AlikeEdit (path.ensureValue root value) (path.ensureValue root' value') :=
  (ensure_alike hpatterns h _ _ (Supply.alike_always hvalue)).1

theorem writeValue_alike {value value' : Value} (hvalue : value.Alike value') :
    AlikeEdit (path.writeValue root value) (path.writeValue root' value') :=
  (write_alike hpatterns h _ _ (Supply.alike_always hvalue)).1

theorem insert_alike (index : Int) {values values' : List Value}
    (hvalues : List.Forall₂ Value.Alike values values') :
    AlikeEdit (path.insert index root values) (path.insert index root' values') := by
  have hensure := ensureValue_alike hpatterns h (container_alike .elements)
  rw [insert, insert]
  change AlikeEdit (path.ensureValue root (.list [])) (path.ensureValue root' (.list [])) at hensure
  generalize path.ensureValue root (.list []) = first at hensure ⊢
  generalize path.ensureValue root' (.list []) = second at hensure ⊢
  obtain ⟨grown, outcome⟩ := first
  obtain ⟨grown', outcome'⟩ := second
  obtain ⟨hgrown, rfl⟩ : grown.Alike grown' ∧ outcome = outcome' := hensure
  cases outcome with
  | error failure => exact ⟨hgrown, rfl⟩
  | ok targets => exact insertEach_alike index hvalues targets hgrown

end

/-! ## All operations -/

/-- The patterns of a path that was read are alike themselves, unless a number in them is
missing. -/
theorem numbered_of_parse {text : String} {limit : Nat} {path : Path}
    (h : parse text limit = .ok path) (hnumbers : path.isNaNFree = true) :
    ∀ selector ∈ path.selectors, selector.Numbered := by
  intro selector hselector pattern hpattern
  obtain ⟨hkeyed, hnumber⟩ := patterns_of_parse h hnumbers selector hselector pattern hpattern
  exact Value.alike_self hkeyed hnumber

/-- Equality of trees is a congruence for all that a path can do.  In trees that are the
same a path gets the same values or fails in the same way, and its edits leave the same
trees with the same answer, whether they succeed or fail.  What ensuring has found there
is the same too. -/
theorem operations_congr {text : String} {limit : Nat} {path : Path}
    (hparse : parse text limit = .ok path) (hnumbers : path.isNaNFree = true)
    (hroot : root.Same root') {value value' : Value} (hvalue : value.Same value')
    {values values' : List Value} (hvalues : List.Forall₂ Value.Same values values')
    (index : Int) :
    Agree (List.Forall₂ Value.Same) (path.get root) (path.get root')
      ∧ SameEdit (path.writeValue root value) (path.writeValue root' value')
      ∧ SameEdit (path.ensureValue root value) (path.ensureValue root' value')
      ∧ (∀ found, (path.ensureValue root value).2 = .ok found →
          List.Forall₂ Value.Same (found.filterMap (path.ensureValue root value).1.get?)
            (found.filterMap (path.ensureValue root' value').1.get?))
      ∧ SameEdit (path.erase root) (path.erase root')
      ∧ SameEdit (path.insert index root values) (path.insert index root' values') := by
  have hpatterns := numbered_of_parse hparse hnumbers
  rw [← Value.alike_iff_same] at hroot hvalue
  have hitems : List.Forall₂ Value.Alike values values' :=
    hvalues.imp fun _ _ hsame => Value.alike_iff_same.mpr hsame
  have hensure := ensureValue_alike hpatterns hroot hvalue
  refine ⟨?_, (writeValue_alike hpatterns hroot hvalue).same, hensure.same, fun found _ => ?_,
    (erase_alike hroot path).same, (insert_alike hpatterns hroot index hitems).same⟩
  · exact (get_alike hroot path).imp fun _ _ hfound => hfound.imp fun _ _ => Value.Alike.same
  · exact (filterMap_get?_alike hensure.1 found).imp fun _ _ => Value.Alike.same

/-- The first elements differ in the order of their keys and in the sign of a zero.  Both
writes change one location, and the results are the same. -/
theorem operations_congr_reordered :
    let path : Path := ⟨"a[{b:1}].c", [⟨.child "a", 1⟩,
      ⟨.elementsMatching [("b", .scalar (.int 1))], 8⟩, ⟨.child "c", 10⟩]⟩
    let zero (negative : Bool) : Value := .scalar (.float (.finite negative .zero))
    let root : Value := .compound [("a", .list [.compound [("b", .scalar (.int 1)),
      ("c", zero true)]])]
    let root' : Value := .compound [("a", .list [.compound [("c", zero false),
      ("b", .scalar (.int 1))]])]
    let value : Value := .list [zero false]
    parse path.text = .ok path
      ∧ (path.writeValue root value).2 = .ok 1
      ∧ SameEdit (path.writeValue root value) (path.writeValue root' value) := by
  intro path zero root root' value
  have hparse : parse path.text = .ok path := by cbv
  have hroot : root.Keyed := by
    refine .compound (by simp [Compound.keys]) (List.forall_mem_singleton.mpr (.list ?_))
    refine List.forall_mem_singleton.mpr (.compound (by simp [Compound.keys]) ?_)
    simp [Value.Keyed.scalar, zero]
  have hroot' : root'.Keyed := by
    refine .compound (by simp [Compound.keys]) (List.forall_mem_singleton.mpr (.list ?_))
    refine List.forall_mem_singleton.mpr (.compound (by simp [Compound.keys]) ?_)
    simp [Value.Keyed.scalar, zero]
  have hvalue : value.Keyed := .list (List.forall_mem_singleton.mpr .scalar)
  have hsame : root.Same root' := ⟨hroot, hroot', rfl⟩
  obtain ⟨-, hwrite, -⟩ := operations_congr hparse rfl hsame ⟨hvalue, hvalue, rfl⟩ .nil 0
  exact ⟨hparse, rfl, hwrite⟩

end Path

end TreeQuery
