import Mathlib
import TreeQuery.Path.Edit
import TreeQuery.Proofs.Path.Locate
import TreeQuery.Proofs.Path.Patterns
import TreeQuery.Proofs.Selector.Erase

/-!
# Laws of erasing a path

Erasing finds the parents, that is, what all selectors but the last pick, and lets
the last selector erase in each of them.  The parents part from each other, so what
goes from one of them is there until its turn comes.  Taken together, exactly the
locations of the path go, and the answer is their number (`erase_located`).

A root filter has no parent to be taken from.  In a path that was read it can only
come first, so it is last only in a path of one selector.
-/

namespace TreeQuery

/-! ## Erasing in many parents -/

/-- Where the last selector picks something in several parents, all of it goes. -/
theorem Value.editEach_erase {last : Selector} (hreach : last.reach = 1) {parents : List Address} :
    ∀ {root : Value}, root.Sites parents → root.Keyed →
      Id.run (Value.editEach (fun value => pure (last.erase value)) parents root)
        = (root.without (parents.flatMap (root.searchAt last.locate)).contains,
          parents.map fun parent => (parent, (root.searchAt last.locate parent).length)) := by
  induction parents with
  | nil =>
      intro root _ _
      show (root, []) = (root.without fun _ => false, [])
      rw [without_false]
  | cons parent rest ih =>
      intro root hsites hkeyed
      obtain ⟨haway, -⟩ := List.pairwise_cons.mp hsites.apart
      obtain ⟨old, hold⟩ := hsites.there parent (List.mem_cons_self ..)
      have hrun : Id.run (Value.editEach (fun value => pure (last.erase value))
            (parent :: rest) root)
          = let others := Id.run (Value.editEach (fun value => pure (last.erase value)) rest
              (root.put parent (last.erase old).1))
            (others.1, (parent, (last.erase old).2) :: others.2) := by
        rw [editEach, hold]
        rfl
      have hspec := Selector.erase_spec hreach (hkeyed.get? hold)
      have hothers := ih (hsites.put (last.erase old).1)
        (hkeyed.put (by rw [hspec]; exact (hkeyed.get? hold).without _))
      -- The other parents are as they were before.
      have hsame : ∀ other ∈ rest, (root.put parent (last.erase old).1).searchAt last.locate other
          = root.searchAt last.locate other := fun other hother =>
        searchAt_congr _ (get?_put_disjoint root _ (haway other hother))
      have hcounts : (rest.map fun other =>
            (other, ((root.put parent (last.erase old).1).searchAt last.locate other).length))
          = rest.map fun other => (other, (root.searchAt last.locate other).length) :=
        List.map_congr_left fun other hother => by rw [hsame other hother]
      rw [hrun, hothers, hcounts, List.flatMap_congr hsame, hspec, List.map_cons,
        List.flatMap_cons, searchAt_of_get? _ hold, List.length_map]
      refine congrArg (·, _) (Eq.symm ?_)
      have hotherApart : ∀ a ∈ rest.flatMap (root.searchAt last.locate),
          Address.Disjoint parent a := by
        intro a ha
        obtain ⟨other, hother, ha⟩ := List.mem_flatMap.mp ha
        obtain ⟨inner, -, below, -, rfl⟩ := mem_searchAt.mp ha
        exact (haway other hother).append_right below
      refine without_append hkeyed hold (fun h => ?_) hotherApart
      have hlength := Selector.length_of_mem_locate h
      rw [hreach] at hlength
      cases hlength

/-! ## Erasing a path -/

namespace Path

/-- An edit enters the locations that are found, and gives up where nothing is. -/
theorem enterFrom_eq_toOption (root : Value) (selectors : List Selector) :
    ∀ (ordinal : Nat) (found : List Address),
      enterFrom root selectors found = (locateFrom root ordinal selectors found).toOption := by
  induction selectors with
  | nil => exact fun _ _ => rfl
  | cons selector rest ih =>
      intro ordinal found
      rw [enterFrom, locateFrom, Selector.enterEach_eq_locateEach]
      cases selector.locateEach root found with
      | nil => rfl
      | cons first others => exact ih (ordinal + 1) (first :: others)

/-- Entering with all selectors of a path finds the locations of the path. -/
theorem enterFrom_eq_locate (path : Path) (root : Value) :
    enterFrom root path.selectors [[]] = (path.locate root).toOption := by
  rw [enterFrom_eq_toOption root path.selectors 0, locate]
  cases locateFrom root 0 path.selectors [[]] <;> rfl

theorem erase_of_concat {path : Path} {parents : List Selector} {last : Selector}
    (h : path.selectors = parents ++ [last]) (root : Value) :
    path.erase root = match locateFrom root 0 parents [[]] with
      | .ok found =>
          let outcome := Id.run (Value.editEach (fun value => pure (last.erase value)) found root)
          (outcome.1, total outcome.2)
      | .error _ => (root, 0) := by
  rw [erase, h, List.getLast?_concat, List.dropLast_concat, enterFrom_eq_toOption root parents 0]
  cases locateFrom root 0 parents [[]] with
  | ok found => rfl
  | error ordinal => rfl

theorem erase_rootMatching {path : Path} {pattern : Compound}
    (h : path.selectors = [.rootMatching pattern]) (root : Value) :
    path.erase root = (root, 0) := by
  rw [@erase_of_concat path [] (.rootMatching pattern) h]
  have hput : (Value.put root [] root, 0) = (root, 0) := by rw [Value.put_nil]
  exact hput

/-- A path whose last selector is no root filter erases all its locations. -/
theorem erase_of_reach {path : Path} {parents : List Selector} {last : Selector}
    (h : path.selectors = parents ++ [last]) (hreach : last.reach = 1) {root : Value}
    (hkeyed : root.Keyed) :
    path.erase root = (root.without (path.located root).contains, path.count root) := by
  rw [located_eq_picks, count_eq_length_picks, erase_of_concat h, h, picks_concat]
  rcases locateFrom_cases parents root with hok | ⟨hnil, ordinal, herror⟩
  · rw [hok]
    dsimp only
    rw [Value.editEach_erase hreach (picks_sites parents root) hkeyed, locateEach_eq_flatMap,
      List.length_flatMap, total, List.map_map, List.sum_eq_foldr]
    rfl
  · rw [herror, hnil]
    show (root, 0) = (root.without fun _ => false, 0)
    rw [Value.without_false]

/-- Erasing by a path that was read takes away exactly the locations of the path, and
nothing else changes: all other keys and elements stay, in their order.  The answer is
the number of locations the path had before.  A path of a root filter alone erases
nothing. -/
theorem erase_located {text : String} {limit : Nat} {path : Path}
    (hparse : parse text limit = .ok path) {root : Value} (hkeyed : root.Keyed) :
    match path.selectors with
    | [.rootMatching _] => path.erase root = (root, 0)
    | _ => path.erase root = (root.without (path.located root).contains, path.count root) := by
  split
  · next pattern h => exact erase_rootMatching h root
  · next hother =>
    obtain ⟨first, rest, hselectors, hreach⟩ := selectors_of_parse hparse
    rcases List.eq_nil_or_concat rest with rfl | ⟨init, last, rfl⟩
    · rcases first.reach_cases with hfirst | ⟨pattern, rfl⟩
      · exact @erase_of_reach path [] first hselectors hfirst root hkeyed
      · exact absurd hselectors (hother pattern)
    · rw [List.concat_eq_append] at hselectors hreach
      have hlast : last.reach = 1 :=
        hreach last (List.mem_append_right _ (List.mem_singleton_self _))
      exact @erase_of_reach path (first :: init) last hselectors hlast root hkeyed

/-- The first element loses a key, the second one has no match, and the last one is
no compound. -/
theorem erase_located_in_list :
    let path : Path := ⟨"a[].b{c:1}", [⟨.child "a", 1⟩, ⟨.elements, 3⟩,
      ⟨.childMatching "b" [("c", .scalar (.int 1))], 10⟩]⟩
    let one : Value := .compound [("c", .scalar (.int 1))]
    let root : Value := .compound [("a", .list [.compound [("x", one), ("b", one), ("y", one)],
      .compound [("b", .list [one])], .list []])]
    parse path.text = .ok path ∧ root.Keyed
      ∧ path.erase root = (root.without [[.key "a", .index 0, .key "b"]].contains, 1) := by
  intro path one root
  have hparse : parse path.text = .ok path := by cbv
  have hkeyed : root.Keyed := by
    have hone : one.Keyed := .compound (by decide) (by simp [Value.Keyed.scalar])
    refine .compound (by decide) (List.forall_mem_singleton.mpr (.list ?_))
    refine List.forall_mem_cons.mpr ⟨.compound (by decide) (by simp [hone]), ?_⟩
    refine List.forall_mem_cons.mpr ⟨.compound (by decide) ?_, ?_⟩
    · exact List.forall_mem_singleton.mpr (.list (List.forall_mem_singleton.mpr hone))
    · exact List.forall_mem_singleton.mpr (.list (by simp))
  exact ⟨hparse, hkeyed, erase_located hparse hkeyed⟩

end Path

end TreeQuery
