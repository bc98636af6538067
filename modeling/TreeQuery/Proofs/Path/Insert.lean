import TreeQuery.Proofs.Path.Ensure

/-!
# Laws of putting values into lists

Putting values into a list is a loop over the values, which checks the position of
each value by itself.  Still a list gets all values or none (`insertAt_eq`), because
after the first value every next position is in the list again.

The lists at the targets of a path are edited in turn, up to the first target that
refuses the values (`Path.Refuses`).  All targets before that one have received all
values (`Path.Receives`), and nothing else has changed (`insert_splices`).

Positions are integers of 64 bits where the loop runs.  `insertEachChecked` is the
loop with every sum checked for overflow, and it gives the same answer.
-/

namespace TreeQuery.Path

/-! ## One list -/

/-- The position of an index in a list.  From the end, `-1` is after the last
element. -/
def insertPosition (index : Int) (items : List Value) : Int :=
  if index < 0 then items.length + index + 1 else index

/-- The list with values between its elements at a position. -/
def spliced (position : Int) (values items : List Value) : List Value :=
  items.take position.toNat ++ values ++ items.drop position.toNat

/-- There is nothing to put, or there is such a position in the list. -/
def Fits (position : Int) (values items : List Value) : Prop :=
  values = [] ∨ 0 ≤ position ∧ position ≤ items.length

theorem spliced_nil (position : Int) (items : List Value) : spliced position [] items = items := by
  simp [spliced]

/-- Further values go after the first one. -/
theorem take_append_drop_insertIdx (value : Value) (rest : List Value) :
    ∀ {place : Nat} {items : List Value}, place ≤ items.length →
      (items.insertIdx place value).take (place + 1) ++ rest
          ++ (items.insertIdx place value).drop (place + 1)
        = items.take place ++ value :: rest ++ items.drop place
  | 0, items, _ => by simp
  | place + 1, [], h => by simp at h
  | place + 1, item :: items, h => by
      have hplace : place ≤ items.length := by simpa using h
      have ih := take_append_drop_insertIdx value rest hplace
      simp only [List.insertIdx_succ_cons, List.take_succ_cons, List.drop_succ_cons,
        List.cons_append]
      rw [ih]

theorem spliced_cons {position : Int} {items : List Value} (value : Value) (rest : List Value)
    (h : 0 ≤ position ∧ position ≤ items.length) :
    spliced (position + 1) rest (items.insertIdx position.toNat value)
      = spliced position (value :: rest) items := by
  have hnext : (position + 1).toNat = position.toNat + 1 := by omega
  rw [spliced, spliced, hnext]
  exact take_append_drop_insertIdx value rest (by omega)

/-- The next position is in the list that has received a value. -/
theorem fits_next {position : Int} {items : List Value} (value : Value) (rest : List Value)
    (h : 0 ≤ position ∧ position ≤ items.length) :
    Fits (position + 1) rest (items.insertIdx position.toNat value) := by
  have hlength : (items.insertIdx position.toNat value).length = items.length + 1 :=
    List.length_insertIdx_of_le_length (by omega) value
  refine .inr ⟨by omega, ?_⟩
  rw [hlength]
  omega

/-- A list gets all values or none. -/
theorem insertAt_of_fits {values : List Value} :
    ∀ {position : Int} {items : List Value}, Fits position values items →
      insertAt position values items = .ok (spliced position values items) := by
  induction values with
  | nil =>
      intro position items _
      rw [insertAt, spliced_nil]
  | cons value rest ih =>
      intro position items h
      have hrange : 0 ≤ position ∧ position ≤ items.length := h.resolve_left (List.cons_ne_nil _ _)
      rw [insertAt, if_pos hrange, ih (fits_next value rest hrange), spliced_cons value rest hrange]

theorem insertAt_of_not_fits {position : Int} {values items : List Value}
    (h : ¬Fits position values items) :
    insertAt position values items = .error (.invalidIndex position) := by
  cases values with
  | nil => exact absurd (.inl rfl) h
  | cons value rest => rw [insertAt, if_neg fun hrange => h (.inr hrange)]

/-! ## One target -/

/-- A list receives the values at the position of the index. -/
inductive Receives (index : Int) (values : List Value) : Value → Value → Int → Prop where
  | list {items : List Value} : Fits (insertPosition index items) values items →
      Receives index values (.list items)
        (.list (spliced (insertPosition index items) values items)) (insertPosition index items)

/-- Why a target gets no values. -/
inductive Refuses (index : Int) (values : List Value) : Value → EditError → Prop where
  /-- It is no list. -/
  | kind {target : Value} : (∀ items, target ≠ .list items) →
      Refuses index values target (.expectedList target.kind)
  /-- There are values, and the list has no such position. -/
  | position {items : List Value} : ¬Fits (insertPosition index items) values items →
      Refuses index values (.list items) (.invalidIndex (insertPosition index items))

theorem receives_or_refuses (index : Int) (values : List Value) (target : Value) :
    (∃ new position, Receives index values target new position)
      ∨ ∃ fault, Refuses index values target fault := by
  cases target with
  | compound entries => exact .inr ⟨_, .kind nofun⟩
  | list items =>
      by_cases h : Fits (insertPosition index items) values items
      · exact .inl ⟨_, _, .list h⟩
      · exact .inr ⟨_, .position h⟩
  | scalar s => exact .inr ⟨_, .kind nofun⟩

theorem insertEach_of_receives {index : Int} {values : List Value} {root old new : Value}
    {address : Address} {position : Int} (hget : root.get? address = some old)
    (h : Receives index values old new position) (rest : List Address) :
    insertEach index values (address :: rest) root
      = ((insertEach index values rest (root.put address new)).1,
        (insertEach index values rest (root.put address new)).2.map fun count =>
          if values.isEmpty then count else count + 1) := by
  cases h with
  | @list items hfits =>
      rw [insertEach, hget]
      dsimp only
      rw [← insertPosition, insertAt_of_fits hfits]

theorem insertEach_of_refuses {index : Int} {values : List Value} {root old : Value}
    {address : Address} {fault : EditError} (hget : root.get? address = some old)
    (h : Refuses index values old fault) (rest : List Address) :
    insertEach index values (address :: rest) root = (root, .error fault) := by
  rw [insertEach, hget]
  cases h with
  | kind hkind =>
      cases old with
      | compound entries => rfl
      | list items => exact absurd rfl (hkind items)
      | scalar s => rfl
  | position hfits =>
      dsimp only
      rw [← insertPosition, insertAt_of_not_fits hfits]

/-! ## All targets -/

/-- How putting values into the lists at some targets can end. -/
inductive Inserted (index : Int) (values : List Value) (targets : List Address)
    (before after : Value) : Except EditError Nat → Prop where
  /-- All targets have received the values.  They count unless there was nothing to
  put. -/
  | all {positions : List (Address × Int)} :
      Value.EditedEach (Receives index values) targets before after positions →
      Inserted index values targets before after (.ok (if values = [] then 0 else targets.length))
  /-- The targets before the first one that refuses have received them.  That one and
  all later ones are as before. -/
  | refused {done later : List Address} {target : Address} {found : Value} {fault : EditError}
      {positions : List (Address × Int)} :
      targets = done ++ target :: later →
      Value.EditedEach (Receives index values) done before after positions →
      before.get? target = some found → Refuses index values found fault →
      (∀ other ∈ target :: later, after.get? other = before.get? other) →
      Inserted index values targets before after (.error fault)

theorem Inserted.cons {index : Int} {values : List Value} {address : Address}
    {rest : List Address} {root result old new : Value} {position : Int}
    {outcome : Except EditError Nat} (hget : root.get? address = some old)
    (haway : ∀ b ∈ rest, Address.Disjoint address b)
    (hreceives : Receives index values old new position)
    (h : Inserted index values rest (root.put address new) result outcome) :
    Inserted index values (address :: rest) root result
      (outcome.map fun count => if values.isEmpty then count else count + 1) := by
  have hsame : ∀ b ∈ rest, (root.put address new).get? b = root.get? b :=
    fun b hb => Value.get?_put_disjoint root new (haway b hb)
  cases h with
  | all hedited =>
      have hall := Inserted.all (hedited.cons hget haway hreceives)
      cases values with
      | nil => exact hall
      | cons value more => exact hall
  | @refused done later target found fault positions htargets hedited hfound hrefuses hlater =>
      have hmem : ∀ b ∈ target :: later, b ∈ rest := fun b hb =>
        htargets ▸ List.mem_append_right done hb
      have hdone : ∀ b ∈ done, Address.Disjoint address b := fun b hb =>
        haway b (htargets ▸ List.mem_append_left (target :: later) hb)
      have hsplit : address :: rest = (address :: done) ++ target :: later := by
        rw [htargets, List.cons_append]
      refine .refused hsplit (hedited.cons hget hdone hreceives) ?_ hrefuses fun b hb => ?_
      · rw [← hfound, hsame target (hmem target (List.mem_cons_self ..))]
      · rw [hlater b hb, hsame b (hmem b hb)]

/-- The loop ends in one of these ways. -/
theorem insertEach_spec (index : Int) (values : List Value) {targets : List Address} :
    ∀ {root : Value}, root.Sites targets →
      Inserted index values targets root (insertEach index values targets root).1
        (insertEach index values targets root).2 := by
  induction targets with
  | nil =>
      intro root _
      have hall := Inserted.all (.nil (Receives index values) root)
      rw [List.length_nil, ite_self] at hall
      exact hall
  | cons address rest ih =>
      intro root hsites
      obtain ⟨haway, -⟩ := List.pairwise_cons.mp hsites.apart
      obtain ⟨old, hget⟩ := hsites.there address (List.mem_cons_self ..)
      rcases receives_or_refuses index values old with
        ⟨new, position, hreceives⟩ | ⟨fault, hrefuses⟩
      · rw [insertEach_of_receives hget hreceives]
        exact (ih (hsites.put new)).cons hget haway hreceives
      · rw [insertEach_of_refuses hget hrefuses]
        exact .refused (List.nil_append _).symm (.nil (Receives index values) root) hget hrefuses
          fun _ _ => rfl

/-! ## Sums of 64 bits -/

/-- A sum of 64 bits, none when it overflows. -/
def checkedSum (a b : Int) : Option Int := if Numeral.inInt64 (a + b) then some (a + b) else none

/-- The position of an index, with every sum checked. -/
def checkedPosition (index : Int) (items : List Value) : Option Int :=
  if index < 0 then (checkedSum items.length index).bind fun sum => checkedSum sum 1
  else some index

/-- Put values into a list, with every sum checked. -/
def insertAtChecked (position : Int) :
    List Value → List Value → Option (Except EditError (List Value))
  | [], items => some (.ok items)
  | value :: rest, items =>
      if 0 ≤ position ∧ position ≤ items.length then
        (checkedSum position 1).bind fun next =>
          insertAtChecked next rest (items.insertIdx position.toNat value)
      else some (.error (.invalidIndex position))

/-- Put values into the list at every target, with every sum checked. -/
def insertEachChecked (index : Int) (values : List Value) : List Address → Value →
    Option (Value × Except EditError Nat)
  | [], root => some (root, .ok 0)
  | address :: rest, root =>
      match root.get? address with
      | none => insertEachChecked index values rest root
      | some (.list items) => do
          let position ← checkedPosition index items
          match ← insertAtChecked position values items with
          | .error error => pure (root, .error error)
          | .ok grown =>
              let (result, outcome) ←
                insertEachChecked index values rest (root.put address (.list grown))
              pure (result, outcome.map fun count => if values.isEmpty then count else count + 1)
      | some other => some (root, .error (.expectedList other.kind))

theorem checkedSum_eq {a b : Int} (hleast : Int64.minValue.toInt ≤ a + b)
    (hgreatest : a + b ≤ Int64.maxValue.toInt) : checkedSum a b = some (a + b) := by
  have hrange : Numeral.inInt64 (a + b) = true := by
    simp only [Numeral.inInt64, Bool.and_eq_true, decide_eq_true_eq]
    exact ⟨hleast, hgreatest⟩
  rw [checkedSum, if_pos hrange]

theorem checkedPosition_eq (index : Int64) {items : List Value}
    (hlength : (items.length : Int) ≤ Int64.maxValue.toInt) :
    checkedPosition index.toInt items = some (insertPosition index.toInt items) := by
  have hleast := index.minValue_le_toInt
  have hzero : (0 : Int) ≤ Int64.maxValue.toInt := by decide
  rw [checkedPosition, insertPosition]
  split
  · next hnegative =>
    rw [checkedSum_eq (by omega) (by omega), Option.bind_some, checkedSum_eq (by omega) (by omega)]
  · rfl

/-- A position is summed up only where there is such a position in the list. -/
theorem insertAtChecked_eq {values : List Value} :
    ∀ (position : Int) {items : List Value},
      (items.length + values.length : Int) ≤ Int64.maxValue.toInt →
        insertAtChecked position values items = some (insertAt position values items) := by
  induction values with
  | nil =>
      intro position items _
      rw [insertAtChecked, insertAt]
  | cons value rest ih =>
      intro position items hlength
      rw [insertAtChecked, insertAt]
      split
      · next hrange =>
        have hleast : Int64.minValue.toInt ≤ 0 := by decide
        rw [List.length_cons] at hlength
        have hinserted : (items.insertIdx position.toNat value).length = items.length + 1 :=
          List.length_insertIdx_of_le_length (by omega) value
        rw [checkedSum_eq (by omega) (by omega), Option.bind_some]
        exact ih (position + 1) (by rw [hinserted]; omega)
      · rfl

/-- No list becomes longer than 64 bits can count. -/
def Countable (values : List Value) (root : Value) (targets : List Address) : Prop :=
  ∀ target ∈ targets, ∀ items, root.get? target = some (.list items) →
    (items.length + values.length : Int) ≤ Int64.maxValue.toInt

/-- Then no sum overflows. -/
theorem insertEachChecked_eq (index : Int64) (values : List Value) {targets : List Address} :
    ∀ {root : Value}, root.Sites targets → Countable values root targets →
      insertEachChecked index.toInt values targets root
        = some (insertEach index.toInt values targets root) := by
  induction targets with
  | nil =>
      intro root _ _
      rw [insertEachChecked, insertEach]
  | cons address rest ih =>
      intro root hsites hcount
      obtain ⟨haway, -⟩ := List.pairwise_cons.mp hsites.apart
      obtain ⟨old, hget⟩ := hsites.there address (List.mem_cons_self ..)
      cases old with
      | compound entries => rw [insertEachChecked, insertEach, hget]
      | scalar s => rw [insertEachChecked, insertEach, hget]
      | list items =>
          have hlength := hcount address (List.mem_cons_self ..) items hget
          have hrest : ∀ new, Countable values (root.put address new) rest := by
            intro new other hother found hfound
            rw [Value.get?_put_disjoint root new (haway other hother)] at hfound
            exact hcount other (List.mem_cons_of_mem _ hother) found hfound
          have hposition : checkedPosition index.toInt items
              = some (insertPosition index.toInt items) := checkedPosition_eq index (by omega)
          have hat := insertAtChecked_eq (insertPosition index.toInt items) hlength
          rw [insertEachChecked, insertEach, hget]
          simp only [hposition, hat, Option.bind_eq_bind, Option.bind_some]
          rw [← insertPosition]
          cases insertAt (insertPosition index.toInt items) values items with
          | error fault => rfl
          | ok grown =>
              simp only [ih (hsites.put (.list grown)) (hrest (.list grown)), Option.bind_some]
              rfl

/-! ## Putting values into the lists of a path -/

/-- What ensuring a path finds are sites of the tree it leaves. -/
theorem ensureValue_sites {path : Path} {root value grown : Value} {targets : List Address}
    (h : path.ensureValue root value = (grown, .ok targets)) : grown.Sites targets := by
  have hroot : root.Sites [[]] := Value.sites_singleton (Value.get?_nil root)
  rcases path.selectors_cases with hnil | ⟨parents, last, hselectors⟩
  · rw [ensureValue, run_ensure_of_nil hnil] at h
    obtain ⟨rfl, htargets⟩ := Prod.mk.inj h
    obtain rfl := Except.ok.inj htargets
    exact hroot
  · rw [ensureValue, run_ensure hselectors] at h
    generalize hparents : ensureParentsFrom 0 path.selectors [[]] root = outcome at h
    obtain ⟨tree, failed | found⟩ := outcome
    · cases (Prod.mk.inj h).2
    · rw [hselectors] at hparents
      have hsites := ensureEach_sites last (ensureParentsFrom_sites hroot hparents)
        (Supply.always value)
      obtain ⟨rfl, htargets⟩ := Prod.mk.inj h
      obtain rfl := Except.ok.inj htargets
      exact hsites

/-- Values are put into the lists that ensuring the path with an empty list finds, one
after the other, until one of the targets refuses them.  Each target before that one
has received all values, and nothing else has changed in the tree that ensuring left.
No sum overflows while no list becomes longer than 64 bits can count. -/
theorem insert_splices (path : Path) (index : Int64) (root : Value) (values : List Value) :
    match path.ensureValue root (.list []) with
    | (grown, .error failure) =>
        path.insert index.toInt root values = (grown, .error (.notFound failure))
    | (grown, .ok targets) =>
        grown.Sites targets
          ∧ Inserted index.toInt values targets grown (path.insert index.toInt root values).1
              (path.insert index.toInt root values).2
          ∧ (Countable values grown targets →
              insertEachChecked index.toInt values targets grown
                = some (path.insert index.toInt root values)) := by
  have hinsert : path.insert index.toInt root values
      = match path.ensureValue root (.list []) with
        | (grown, .error failure) => (grown, .error (.notFound failure))
        | (grown, .ok targets) => insertEach index.toInt values targets grown := rfl
  generalize hensure : path.ensureValue root (.list []) = ensured at hinsert
  obtain ⟨grown, failure | targets⟩ := ensured
  · exact hinsert
  · have hsites := ensureValue_sites hensure
    dsimp only at hinsert ⊢
    rw [hinsert]
    exact ⟨hsites, insertEach_spec index.toInt values hsites,
      insertEachChecked_eq index values hsites⟩

/-- The first list receives the value before its last element, and the second one is
too short. -/
theorem insert_splices_until_short :
    let path : Path := ⟨"a[]", [⟨.child "a", 1⟩, ⟨.elements, 3⟩]⟩
    let one : Value := .scalar (.int 1)
    let root : Value := .compound [("a", .list [.list [.list [], .list []], .list [], .list [one]])]
    let result : Value :=
      .compound [("a", .list [.list [.list [], one, .list []], .list [], .list [one]])]
    let targets : List Address :=
      [[.key "a", .index 0], [.key "a", .index 1], [.key "a", .index 2]]
    path.insert (-2) root [one] = (result, .error (.invalidIndex (-1)))
      ∧ Countable [one] root targets
      ∧ Inserted (-2) [one] targets root result (.error (.invalidIndex (-1)))
      ∧ insertEachChecked (-2) [one] targets root = some (result, .error (.invalidIndex (-1))) := by
  intro path one root result targets
  have hinsert : path.insert (-2) root [one] = (result, .error (.invalidIndex (-1))) := by rfl
  have hcount : Countable [one] root targets := by
    intro target htarget items hitems
    simp only [targets, List.mem_cons, List.not_mem_nil, or_false] at htarget
    rcases htarget with rfl | rfl | rfl
    · obtain rfl := Value.list.inj (Option.some.inj hitems)
      decide
    · obtain rfl := Value.list.inj (Option.some.inj hitems)
      decide
    · obtain rfl := Value.list.inj (Option.some.inj hitems)
      decide
  obtain ⟨-, hinserted, hchecked⟩ := insert_splices path (-2) root [one]
  exact ⟨hinsert, hcount, hinserted, hchecked hcount⟩

end TreeQuery.Path
