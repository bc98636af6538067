import TreeQuery.Proofs.Path.Growth
import TreeQuery.Proofs.Path.Insert

/-!
# The selector at which a path fails

A path that picks nothing, and an edit that finds nothing to enter, fail with the text
of the path through one of its selectors (`FailsAt`).  The loops over the selectors count
them, and give up with the number of one that they have come to.

The loop over the lists that get values does not fail in this way.
-/

namespace TreeQuery.Path

variable {path : Path} {root grown : Value} {error : NotFound}

/-- The failure is at one of the selectors of the path. -/
def FailsAt (path : Path) (error : NotFound) : Prop :=
  ∃ ordinal < path.length, error = path.notFound ordinal

/-- A loop over the selectors has failed at one of them. -/
theorem failsAt_of_lt {failed : Nat} (h : failed < 0 + path.selectors.length) :
    path.FailsAt (path.notFound failed) := by
  rw [Nat.zero_add, selectors, List.length_map] at h
  exact ⟨failed, h, rfl⟩

/-! ## Reading -/

theorem locateFrom_error : ∀ {selectors : List Selector} {ordinal failed : Nat}
    {found : List Address}, locateFrom root ordinal selectors found = .error failed →
      failed < ordinal + selectors.length
  | [], _, _, _, h => by cases h
  | selector :: rest, ordinal, failed, found, h => by
      rw [List.length_cons]
      rw [locateFrom] at h
      split at h
      · obtain rfl := Except.error.inj h
        omega
      · have hrest := locateFrom_error h
        omega

theorem get_eq_error (h : path.get root = .error error) : path.FailsAt error := by
  rw [get, locate] at h
  generalize hfrom : locateFrom root 0 path.selectors [[]] = outcome at h
  cases outcome with
  | ok found => cases h
  | error failed =>
      obtain rfl := Except.error.inj h
      exact failsAt_of_lt (locateFrom_error hfrom)

/-! ## Edits -/

theorem ensureParentsFrom_error : ∀ {selectors : List Selector} {ordinal failed : Nat}
    {found : List Address} {root : Value},
      ensureParentsFrom ordinal selectors found root = (grown, .error failed) →
        failed < ordinal + selectors.length
  | [], _, _, _, _, h => by cases h
  | [_], _, _, _, _, h => by cases h
  | selector :: next :: rest, ordinal, failed, found, root, h => by
      rw [List.length_cons]
      rw [ensureParentsFrom] at h
      generalize (selector.ensureEach found root).run (Supply.always next.container) = outcome at h
      obtain ⟨⟨tree, _ | ⟨address, picked⟩⟩, supply⟩ := outcome
      · obtain rfl := Except.error.inj (Prod.mk.inj h).2
        omega
      · have hrest := ensureParentsFrom_error h
        omega

theorem ensureParents_eq_error (h : path.ensureParents root = (grown, .error error)) :
    path.FailsAt error := by
  rw [ensureParents] at h
  generalize hfrom : ensureParentsFrom 0 path.selectors [[]] root = outcome at h
  obtain ⟨tree, failed | parents⟩ := outcome
  · obtain rfl := Except.error.inj (Prod.mk.inj h).2
    exact failsAt_of_lt (ensureParentsFrom_error hfrom)
  · cases (Prod.mk.inj h).2

theorem write_eq_error {supply : Supply} (h : ((path.write root).run supply).1.2 = .error error) :
    path.FailsAt error := by
  generalize hwrite : (path.write root).run supply = outcome at h
  obtain ⟨⟨after, _⟩, supply'⟩ := outcome
  subst h
  exact ensureParents_eq_error (ensureParents_of_write_error hwrite)

theorem ensure_eq_error {supply : Supply} (h : ((path.ensure root).run supply).1.2 = .error error) :
    path.FailsAt error := by
  rcases path.selectors_cases with hnil | ⟨parents, last, hselectors⟩
  · rw [run_ensure_of_nil hnil] at h
    cases h
  · rw [run_ensure hselectors] at h
    generalize hfrom : ensureParentsFrom 0 path.selectors [[]] root = outcome at h
    obtain ⟨tree, failed | found⟩ := outcome
    · obtain rfl := Except.error.inj h
      exact failsAt_of_lt (ensureParentsFrom_error hfrom)
    · cases h

/-- Where the lists are found, they are not missing. -/
theorem insertEach_ne_notFound {index : Int} {values : List Value} {targets : List Address} :
    (insertEach index values targets root).2 ≠ .error (.notFound error) := by
  induction targets generalizing root with
  | nil =>
      intro h
      cases h
  | cons address rest ih =>
      cases hget : root.get? address with
      | none =>
          rw [insertEach, hget]
          exact ih
      | some old =>
          rcases receives_or_refuses index values old with
            ⟨new, position, hreceives⟩ | ⟨fault, hrefuses⟩
          · have hrest := @ih (root.put address new)
            rw [insertEach_of_receives hget hreceives]
            generalize (insertEach index values rest (root.put address new)).2 = outcome at hrest
            cases outcome with
            | ok count =>
                intro h
                cases h
            | error fault =>
                intro h
                exact hrest (congrArg Except.error (Except.error.inj h))
          · rw [insertEach_of_refuses hget hrefuses]
            intro h
            obtain rfl := Except.error.inj h
            cases hrefuses

theorem insert_eq_notFound {index : Int} {values : List Value}
    (h : (path.insert index root values).2 = .error (.notFound error)) : path.FailsAt error := by
  rw [insert] at h
  generalize hensure : path.ensureValue root (.list []) = outcome at h
  obtain ⟨tree, failure | targets⟩ := outcome
  · obtain rfl := EditError.notFound.inj (Except.error.inj h)
    exact ensure_eq_error (congrArg Prod.snd hensure)
  · exact absurd h insertEach_ne_notFound

end TreeQuery.Path
