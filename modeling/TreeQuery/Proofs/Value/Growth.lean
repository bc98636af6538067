import TreeQuery.Proofs.Address
import TreeQuery.Proofs.Value.Matching

/-!
# Trees that grow

A tree grows into another one when all its locations are still there
(`Value.GrowsTo`).  A leaf is the same.  A compound has its keys in their old order,
and new keys only after them.  A list is as long as before or one element longer, and
the new element comes last, since the old ones are where they were.

A list can grow by one element only, so growing twice is not growing.  What one edit
does to a value is a *sprout*: a new child appears at most, and the children that were
there are the very same (`Value.Sprouts`).  Edits that go down a tree sprout each value
once.  To show that, `Value.GrownAbove` keeps the locations at which the next edits
start: what the first tree has there has not been edited yet.

As a pattern, a tree with distinct keys and no missing number accepts every tree that
it grows into (`GrowsTo.accepts`).
-/

namespace TreeQuery

/-- What may become of the layout of a value that grows. -/
inductive Layout.Grows : Layout → Layout → Prop where
  /-- New keys come after the old ones. -/
  | keys (names more : List String) : Grows (.keys names) (.keys (names ++ more))
  /-- A list has no new element. -/
  | length (count : Nat) : Grows (.length count) (.length count)
  /-- A list has one new element. -/
  | longer (count : Nat) : Grows (.length count) (.length (count + 1))
  /-- A leaf stays as it is. -/
  | leaf (s : Scalar) : Grows (.leaf s) (.leaf s)

theorem Layout.Grows.refl (layout : Layout) : layout.Grows layout := by
  cases layout with
  | keys names =>
      have h := Layout.Grows.keys names []
      rwa [List.append_nil] at h
  | length count => exact .length count
  | leaf s => exact .leaf s

namespace Value

/-- Every location of the old tree is one of the new tree, and the layout there has at
most grown. -/
def GrowsTo (old new : Value) : Prop :=
  ∀ address inner, old.get? address = some inner →
    ∃ inner', new.get? address = some inner' ∧ inner.layout.Grows inner'.layout

theorem GrowsTo.refl (value : Value) : value.GrowsTo value :=
  fun _ inner h => ⟨inner, h, .refl inner.layout⟩

/-- What is below a location grows with the tree. -/
theorem GrowsTo.below {old new inner : Value} {address : Address} (h : old.GrowsTo new)
    (hget : old.get? address = some inner) :
    ∃ inner', new.get? address = some inner' ∧ inner.GrowsTo inner' := by
  obtain ⟨inner', hget', -⟩ := h address inner hget
  refine ⟨inner', hget', fun below found hfound => ?_⟩
  have hwhole : old.get? (address ++ below) = some found := by
    rw [get?_append, hget, Option.bind_some, hfound]
  obtain ⟨found', hfound', hgrows⟩ := h (address ++ below) found hwhole
  rw [get?_append, hget', Option.bind_some] at hfound'
  exact ⟨found', hfound', hgrows⟩

theorem GrowsTo.layout {old new : Value} (h : old.GrowsTo new) :
    old.layout.Grows new.layout := by
  obtain ⟨inner, hinner, hgrows⟩ := h [] old (get?_nil old)
  rw [get?_nil] at hinner
  rwa [Option.some.inj hinner]

/-- A tree accepts what it grows into. -/
theorem GrowsTo.accepts {old : Value} (hkeyed : old.Keyed) (hnumbers : old.isNaNFree = true)
    {new : Value} (h : old.GrowsTo new) : old.accepts new = true := by
  induction hkeyed generalizing new with
  | @compound entries hkeys _ ih =>
      rw [isNaNFree, allScalars, allScalarsEntries_iff] at hnumbers
      cases new with
      | compound entries' =>
          rw [accepts_compound, acceptsEntries_iff]
          intro entry hentry
          have hget : (compound entries).get? [.key entry.1] = some entry.2 := by
            rw [get?_key, get?_of_mem hkeys hentry]
          obtain ⟨found, hfound, hgrows⟩ := h.below hget
          rw [get?_key] at hfound
          exact ⟨found, hfound, ih entry hentry (hnumbers entry hentry) hgrows⟩
      | list items => cases h.layout
      | scalar s => cases h.layout
  | @list items _ ih =>
      rw [isNaNFree, allScalars, allScalarsItems_iff] at hnumbers
      cases new with
      | compound entries => cases h.layout
      | list items' =>
          rw [accepts_list, acceptsItems_iff]
          intro position item hitem
          have hmem := List.mem_of_getElem? hitem
          have hget : (list items).get? [.index position] = some item := by
            rw [get?_index, hitem]
          obtain ⟨found, hfound, hgrows⟩ := h.below hget
          rw [get?_index] at hfound
          exact ⟨found, hfound, ih item hmem (hnumbers item hmem) hgrows⟩
      | scalar s => cases h.layout
  | @scalar s =>
      cases new with
      | compound entries => cases h.layout
      | list items => cases h.layout
      | scalar s' =>
          have hgrows : (Layout.leaf s).Grows (.leaf s') := h.layout
          cases hgrows
          rw [accepts_scalar]
          exact scalar_equal_self hnumbers

/-! ## One edit after the other -/

/-- One edit has at most given the value a new child.  The answer of the edit has
addresses at which nothing that was there has changed. -/
structure Sprouts (old new : Value) (picked : List Address) : Prop where
  /-- The layout has grown. -/
  layout : old.layout.Grows new.layout
  /-- The old children are the same. -/
  children : ∀ step child, old.child? step = some child → new.child? step = some child
  /-- So is what was at the addresses of the answer. -/
  picked : ∀ address ∈ picked, ∀ inner, old.get? address = some inner →
    new.get? address = some inner

theorem Sprouts.refl (value : Value) (picked : List Address) : value.Sprouts value picked :=
  ⟨.refl value.layout, fun _ _ h => h, fun _ _ _ h => h⟩

/-- Children are where they were, so an answer with addresses of one step needs no
further proof. -/
theorem Sprouts.of_children {old new : Value} {picked : List Address}
    (hlayout : old.layout.Grows new.layout)
    (hchildren : ∀ step child, old.child? step = some child → new.child? step = some child)
    (hpicked : ∀ address ∈ picked, address.length = 1) : old.Sprouts new picked := by
  refine ⟨hlayout, hchildren, fun address haddress inner hinner => ?_⟩
  obtain ⟨step, rfl⟩ := List.length_eq_one_iff.mp (hpicked address haddress)
  simp only [get?, Option.bind_fun_some] at hinner ⊢
  exact hchildren step inner hinner

theorem Sprouts.growsTo {old new : Value} {picked : List Address}
    (h : old.Sprouts new picked) : old.GrowsTo new := by
  intro address inner hinner
  cases address with
  | nil =>
      rw [get?_nil] at hinner
      exact ⟨new, get?_nil new, Option.some.inj hinner ▸ h.layout⟩
  | cons step rest =>
      simp only [get?] at hinner ⊢
      obtain ⟨child, hchild, hinner⟩ := Option.bind_eq_some_iff.mp hinner
      refine ⟨inner, ?_, .refl inner.layout⟩
      rw [h.children step child hchild, Option.bind_some, hinner]

/-- A tree has grown into another one, and at some locations the other tree still has
what the first one has, if anything. -/
structure GrownAbove (first tree : Value) (addresses : List Address) : Prop where
  /-- The tree has grown. -/
  grown : first.GrowsTo tree
  /-- At the locations nothing has changed yet. -/
  kept : ∀ address ∈ addresses, ∀ inner, first.get? address = some inner →
    tree.get? address = some inner

theorem GrownAbove.refl (value : Value) (addresses : List Address) :
    value.GrownAbove value addresses :=
  ⟨.refl value, fun _ _ _ h => h⟩

/-- When the values at the locations sprout, the edits can go on from the addresses of
their answers. -/
theorem GrownAbove.edited {first before after : Value} {addresses : List Address}
    {answers : List (Address × List Address)} (h : first.GrownAbove before addresses)
    (hedited : EditedEach Sprouts addresses before after answers) :
    first.GrownAbove after (answers.flatMap fun answer => answer.2.map (answer.1 ++ ·)) := by
  -- At a location the old value is that of the first tree, if that has one.
  have hsprout : ∀ answer ∈ answers, ∀ old, first.get? answer.1 = some old →
      ∃ new, after.get? answer.1 = some new ∧ old.Sprouts new answer.2 := by
    intro answer hanswer old hold
    have hplace : answer.1 ∈ addresses := by
      rw [← hedited.places]
      exact List.mem_map_of_mem hanswer
    obtain ⟨old', new, hold', hnew, hsprouts⟩ := hedited.each answer hanswer
    obtain rfl := Option.some.inj ((h.kept answer.1 hplace old hold).symm.trans hold')
    exact ⟨new, hnew, hsprouts⟩
  constructor
  · intro address inner hinner
    by_cases habove : ∃ start ∈ addresses, start <+: address
    · obtain ⟨start, hstart, below, rfl⟩ := habove
      rw [← hedited.places] at hstart
      obtain ⟨answer, hanswer, rfl⟩ := List.mem_map.mp hstart
      rw [get?_append] at hinner
      obtain ⟨old, hold, hinner⟩ := Option.bind_eq_some_iff.mp hinner
      obtain ⟨new, hnew, hsprouts⟩ := hsprout answer hanswer old hold
      obtain ⟨inner', hinner', hgrows⟩ := hsprouts.growsTo below inner hinner
      exact ⟨inner', by rw [get?_append, hnew, Option.bind_some, hinner'], hgrows⟩
    · -- Nothing is edited at or above the location.
      have hlayout := hedited.layout address fun start hstart hle => habove ⟨start, hstart, hle⟩
      obtain ⟨found, hfound, hgrows⟩ := h.grown address inner hinner
      rw [hfound, Option.map_some, Option.map_eq_some_iff] at hlayout
      obtain ⟨found', hfound', hsame⟩ := hlayout
      exact ⟨found', hfound', hsame ▸ hgrows⟩
  · intro address haddress inner hinner
    obtain ⟨answer, hanswer, haddress⟩ := List.mem_flatMap.mp haddress
    obtain ⟨below, hbelow, rfl⟩ := List.mem_map.mp haddress
    rw [get?_append] at hinner ⊢
    obtain ⟨old, hold, hinner⟩ := Option.bind_eq_some_iff.mp hinner
    obtain ⟨new, hnew, hsprouts⟩ := hsprout answer hanswer old hold
    rw [hnew, Option.bind_some]
    exact hsprouts.picked below hbelow inner hinner

end Value

end TreeQuery
