import TreeQuery.Proofs.Value.Alike

/-!
# Matching as an order

A pattern asks for a part of a tree, so matching orders trees by what they have.  What
a value has, everything that it accepts has too (`extends_of_accepts`), and so matching
is transitive.

Trees that have the same accept each other, and they are the equal trees
(`equal_iff_accepts`).  Where two compounds accept each other, each has the keys of the
other one.  Their keys are distinct, so there are as many of them, and that is what
equality counts.

A tree with a missing number accepts nothing (`isNaNFree_of_accepts`), and any other one
accepts itself (`accepts_self_iff`).  So matching is reflexive on the trees without a
missing number, and a tree with one is related to none of its copies.
-/

namespace TreeQuery.Value

/-! ## Transitivity -/

/-- Whatever pattern accepts a value accepts all that the value accepts. -/
theorem extends_of_accepts {old new : Value} (hkeyed : old.Keyed) (h : old.accepts new = true) :
    new.Extends old := by
  induction hkeyed generalizing new with
  | compound _ _ ih =>
      cases new with
      | compound entries' =>
          rw [accepts_compound, acceptsEntries_iff] at h
          refine extends_compound fun name value hvalue => ?_
          have hentry := mem_of_get? hvalue
          obtain ⟨found, hfound, haccepts⟩ := h _ hentry
          exact ⟨found, hfound, ih _ hentry haccepts⟩
      | list items => cases h
      | scalar s => cases h
  | list _ ih =>
      cases new with
      | compound entries => cases h
      | list items' =>
          rw [accepts_list, acceptsItems_iff] at h
          refine extends_list fun position value hvalue => ?_
          obtain ⟨found, hfound, haccepts⟩ := h position value hvalue
          exact ⟨found, hfound, ih value (List.mem_of_getElem? hvalue) haccepts⟩
      | scalar s => cases h
  | @scalar s =>
      cases new with
      | compound entries => cases h
      | list items => cases h
      | scalar t =>
          intro pattern hpattern
          cases pattern with
          | compound entries => cases hpattern
          | list items => cases hpattern
          | scalar u => exact Scalar.equal_trans hpattern h

/-! ## Trees that accept each other -/

theorem accepts_of_equal {first second : Value} (hkeyed : first.Keyed)
    (h : first.equal second = true) : first.accepts second = true := by
  induction hkeyed generalizing second with
  | compound _ _ ih =>
      cases second with
      | compound entries' =>
          rw [equal, Bool.and_eq_true, equalEntries_iff] at h
          rw [accepts_compound, acceptsEntries_iff]
          intro entry hentry
          obtain ⟨found, hfound, hequal⟩ := h.2 entry hentry
          exact ⟨found, hfound, ih entry hentry hequal⟩
      | list items => cases h
      | scalar s => cases h
  | list _ ih =>
      cases second with
      | compound entries => cases h
      | list items' =>
          rw [equal, equalItems_iff] at h
          rw [accepts_list, acceptsItems_iff]
          intro position item hitem
          have hrel := rel_getElem? h position
          rw [hitem] at hrel
          obtain ⟨hnone, -⟩ | ⟨_, found, hsome, hfound, hequal⟩ := optionRel_cases hrel
          · cases hnone
          · obtain rfl := Option.some.inj hsome
            exact ⟨found, hfound, ih item (List.mem_of_getElem? hitem) hequal⟩
      | scalar s => cases h
  | scalar =>
      cases second with
      | compound entries => cases h
      | list items => cases h
      | scalar t => exact h

/-- Trees that accept each other are equal: no key and no element is in one of them only. -/
theorem equal_of_accepts {first second : Value} (hkeyed : first.Keyed) (hkeyed' : second.Keyed)
    (h : first.accepts second = true) (h' : second.accepts first = true) :
    first.equal second = true := by
  induction hkeyed generalizing second with
  | @compound entries hkeys _ ih =>
      cases hkeyed' with
      | @compound entries' hkeys' hentries' =>
          rw [accepts_compound, acceptsEntries_iff] at h h'
          have hlength : entries.length = entries'.length := by
            have hperm := (List.subperm_of_subset hkeys (keys_subset_of_find h)).antisymm
              (List.subperm_of_subset hkeys' (keys_subset_of_find h'))
            simpa [Compound.keys] using hperm.length_eq
          rw [equal, hlength, beq_self_eq_true, Bool.true_and, equalEntries_iff]
          intro entry hentry
          obtain ⟨found, hfound, haccepts⟩ := h entry hentry
          -- The key of the entry that is found leads back to this entry.
          have hmem := mem_of_get? hfound
          have hthere := get?_of_mem hkeys hentry
          obtain ⟨back, hback, haccepts'⟩ := h' _ hmem
          obtain rfl := Option.some.inj (hback.symm.trans hthere)
          exact ⟨found, hfound, ih entry hentry (hentries' _ hmem) haccepts haccepts'⟩
      | list => cases h
      | scalar => cases h
  | @list items _ ih =>
      cases hkeyed' with
      | compound => cases h
      | @list items' hitems' =>
          rw [accepts_list, acceptsItems_iff] at h h'
          rw [equal, equalItems_iff]
          refine forall₂_of_rel_getElem? fun position => optionRel_iff.mpr ⟨?_, ?_⟩
          · rw [Bool.eq_iff_iff, Option.isSome_iff_exists, Option.isSome_iff_exists]
            constructor
            · rintro ⟨item, hitem⟩
              obtain ⟨found, hfound, -⟩ := h position item hitem
              exact ⟨found, hfound⟩
            · rintro ⟨item, hitem⟩
              obtain ⟨found, hfound, -⟩ := h' position item hitem
              exact ⟨found, hfound⟩
          · intro item item' hitem hitem'
            obtain ⟨found, hfound, haccepts⟩ := h position item hitem
            obtain ⟨back, hback, haccepts'⟩ := h' position item' hitem'
            obtain rfl := Option.some.inj (hfound.symm.trans hitem')
            obtain rfl := Option.some.inj (hback.symm.trans hitem)
            exact ih back (List.mem_of_getElem? hitem) (hitems' found (List.mem_of_getElem? hitem'))
              haccepts haccepts'
      | scalar => cases h
  | scalar =>
      cases hkeyed' with
      | compound => cases h
      | list => cases h
      | scalar => exact h

theorem equal_iff_accepts {first second : Value} (hkeyed : first.Keyed)
    (hkeyed' : second.Keyed) :
    first.equal second = true ↔ first.accepts second = true ∧ second.accepts first = true := by
  constructor
  · intro h
    have hsymm := (hkeyed.alike hkeyed' h).symm.same.equal
    exact ⟨accepts_of_equal hkeyed h, accepts_of_equal hkeyed' hsymm⟩
  · rintro ⟨h, h'⟩
    exact equal_of_accepts hkeyed hkeyed' h h'

/-! ## Trees that accept themselves -/

theorem isNaNFree_of_scalar_equal {s t : Scalar} (h : s.equal t = true) :
    (scalar s).isNaNFree = true := by
  cases s with
  | float x =>
      cases x with
      | nan =>
          cases t with
          | float y =>
              rw [Scalar.equal, Binary64.equal_nan_left] at h
              cases h
          | bool b => cases h
          | int n => cases h
          | string s => cases h
      | infinite negative => rfl
      | finite negative magnitude => rfl
  | bool b => rfl
  | int n => rfl
  | string s => rfl

/-- A missing number anywhere in a tree keeps the tree from accepting anything. -/
theorem isNaNFree_of_accepts {value other : Value} (hkeyed : value.Keyed)
    (h : value.accepts other = true) : value.isNaNFree = true := by
  induction hkeyed generalizing other with
  | compound _ _ ih =>
      cases other with
      | compound entries' =>
          rw [accepts_compound, acceptsEntries_iff] at h
          rw [isNaNFree, allScalars, allScalarsEntries_iff]
          intro entry hentry
          obtain ⟨found, -, haccepts⟩ := h entry hentry
          exact ih entry hentry haccepts
      | list items => cases h
      | scalar s => cases h
  | list _ ih =>
      cases other with
      | compound entries => cases h
      | list items' =>
          rw [accepts_list, acceptsItems_iff] at h
          rw [isNaNFree, allScalars, allScalarsItems_iff]
          intro item hitem
          obtain ⟨position, hposition⟩ := List.mem_iff_getElem?.mp hitem
          obtain ⟨found, -, haccepts⟩ := h position item hposition
          exact ih item hitem haccepts
      | scalar s => cases h
  | scalar =>
      cases other with
      | compound entries => cases h
      | list items => cases h
      | scalar t => exact isNaNFree_of_scalar_equal h

theorem accepts_self_iff {value : Value} (hkeyed : value.Keyed) :
    value.accepts value = true ↔ value.isNaNFree = true :=
  ⟨isNaNFree_of_accepts hkeyed, accepts_self hkeyed⟩

/-! ## The order -/

/-- On trees with distinct keys, matching is transitive, the trees that accept each other are
the equal ones, and exactly the trees without a missing number accept themselves. -/
theorem accepts_orders {first second third : Value} (hfirst : first.Keyed)
    (hsecond : second.Keyed) :
    (first.accepts second = true → second.accepts third = true → first.accepts third = true)
      ∧ (first.equal second = true
          ↔ first.accepts second = true ∧ second.accepts first = true)
      ∧ (first.accepts first = true ↔ first.isNaNFree = true) :=
  ⟨fun h h' => extends_of_accepts hsecond h' first h, equal_iff_accepts hfirst hsecond,
    accepts_self_iff hfirst⟩

/-- The third tree has the keys of the others in another order, with a zero of the other sign
and an element more. -/
theorem accepts_orders_reordered :
    let zero (negative : Bool) : Value := .scalar (.float (.finite negative .zero))
    let first : Value := .compound [("a", .list [zero false])]
    let second : Value := .compound [("a", .list [zero true]), ("b", .compound [])]
    let third : Value := .compound [("b", .compound []), ("a", .list [zero false, zero true])]
    first.accepts second = true ∧ second.accepts third = true ∧ first.accepts third = true
      ∧ first.equal second = false ∧ first.isNaNFree = true := by
  intro zero first second third
  have hfirst : first.Keyed := .compound (List.nodup_singleton _)
    (List.forall_mem_singleton.mpr (.list (List.forall_mem_singleton.mpr .scalar)))
  have hsecond : second.Keyed := by
    refine .compound (by simp [Compound.keys]) ?_
    simp [Value.Keyed.compound, Value.Keyed.list, Value.Keyed.scalar, Compound.keys, zero]
  obtain ⟨htrans, hequal, hself⟩ := @accepts_orders first second third hfirst hsecond
  have hone : first.accepts second = true := rfl
  have htwo : second.accepts third = true := rfl
  have hback : second.accepts first ≠ true := by decide
  have hdiffer := mt hequal.mp fun hboth => hback hboth.2
  exact ⟨hone, htwo, htrans hone htwo, Bool.eq_false_iff.mpr hdiffer, hself.mp rfl⟩

end TreeQuery.Value
