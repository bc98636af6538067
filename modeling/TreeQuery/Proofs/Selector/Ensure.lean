import TreeQuery.Proofs.Selector.Locate
import TreeQuery.Selector.Edit

/-!
# Laws of ensuring

A value is settled for a selector when ensuring has nothing to make in it.  Then it
changes nothing, takes nothing from the supply, and answers what is picked
(`ensure_of_settled`).

Ensuring leaves a settled value behind that extends the one it found, and its
answer is what is picked in the new value (`ensure_spec`).  This needs that the
pattern accepts its own copy.  Otherwise a copy could be made again and again, and
never be picked.

A settled value stays settled when a picked value in it is extended
(`settled_put`).
-/

namespace TreeQuery.Selector

/-- Ensuring what the selector picks makes nothing in the value. -/
def Settled : Selector → Value → Prop
  | .child name, .compound entries | .childMatching name _, .compound entries =>
      (Compound.get? entries name).isSome = true
  | .elements, .list items => items ≠ []
  | .elementsMatching pattern, .list items => items.any pattern.accepts = true
  | _, _ => True

/-- What ensuring makes of a value. -/
structure Ensured (selector : Selector) (old new : Value) (picked : List Address) : Prop where
  /-- The value has grown. -/
  grown : new.Extends old
  /-- Nothing is missing any more. -/
  settled : selector.Settled new
  /-- The answer is what is picked in the new value. -/
  picked : picked = selector.locate new

theorem ensure_of_settled {selector : Selector} {value : Value} (h : selector.Settled value)
    (s : Supply) :
    (selector.ensure value).run s = ((value, selector.locate value), s) := by
  cases selector with
  | child name =>
      cases value with
      | compound entries =>
          have hsome : (Compound.get? entries name).isSome = true := h
          rw [ensure, locate, if_pos hsome, if_pos hsome]
          rfl
      | list items => rfl
      | scalar leaf => rfl
  | childMatching name pattern =>
      cases value with
      | compound entries =>
          obtain ⟨old, hold⟩ := Option.isSome_iff_exists.mp h
          rw [ensure, locate, hold]
          rfl
      | list items => rfl
      | scalar leaf => rfl
  | rootMatching pattern => rfl
  | elements =>
      cases value with
      | compound entries => rfl
      | list items =>
          cases items with
          | nil => exact absurd rfl h
          | cons item rest => rfl
      | scalar leaf => rfl
  | element index => rfl
  | elementsMatching pattern =>
      cases value with
      | compound entries => rfl
      | list items =>
          have hany : items.any pattern.accepts = true := h
          rw [ensure, if_pos hany]
          rfl
      | scalar leaf => rfl

/-- What ensuring makes of a value that is not settled. -/
inductive Grows : Selector → Value → Value → List Address → Prop where
  | child {entries : Compound} {name : String} (value : Value) :
      Compound.get? entries name = none →
      Grows (.child name) (.compound entries) (.compound (Compound.insert entries name value))
        [[.key name]]
  | childMatching {entries pattern : Compound} {name : String} :
      Compound.get? entries name = none →
      Grows (.childMatching name pattern) (.compound entries)
        (.compound (Compound.insert entries name (.compound pattern))) [[.key name]]
  | elements (value : Value) : Grows .elements (.list []) (.list [value]) [[.index 0]]
  | elementsMatching {pattern : Compound} {items : List Value} :
      Grows (.elementsMatching pattern) (.list items) (.list (items ++ [.compound pattern]))
        ((Selector.elementsMatching pattern).locate (.list (items ++ [.compound pattern])))

theorem ensure_of_not_settled {selector : Selector} {value : Value}
    (h : ¬selector.Settled value) (s : Supply) :
    Grows selector value ((selector.ensure value).run s).1.1
      ((selector.ensure value).run s).1.2 := by
  cases selector with
  | child name =>
      cases value with
      | compound entries =>
          have hnone : Compound.get? entries name = none := by simpa [Settled] using h
          rw [ensure, hnone]
          exact .child _ hnone
      | list items => exact absurd trivial h
      | scalar leaf => exact absurd trivial h
  | childMatching name pattern =>
      cases value with
      | compound entries =>
          have hnone : Compound.get? entries name = none := by simpa [Settled] using h
          rw [ensure, hnone]
          exact .childMatching hnone
      | list items => exact absurd trivial h
      | scalar leaf => exact absurd trivial h
  | rootMatching pattern => exact absurd trivial h
  | elements =>
      cases value with
      | compound entries => exact absurd trivial h
      | list items =>
          cases items with
          | nil => exact .elements _
          | cons item rest => exact absurd (List.cons_ne_nil item rest) h
      | scalar leaf => exact absurd trivial h
  | element index => exact absurd trivial h
  | elementsMatching pattern =>
      cases value with
      | compound entries => exact absurd trivial h
      | list items =>
          have hany : ¬items.any pattern.accepts = true := h
          rw [ensure, if_neg hany]
          exact .elementsMatching
      | scalar leaf => exact absurd trivial h

theorem Grows.ensured {selector : Selector} {old new : Value} {picked : List Address}
    (hcopy : selector.Copyable) (h : Grows selector old new picked) :
    Ensured selector old new picked := by
  cases h with
  | child value hnone =>
      refine ⟨Value.extends_insert value hnone, ?_, ?_⟩
      · simp [Settled, Compound.get?_insert]
      · simp [locate, Compound.get?_insert]
  | @childMatching entries pattern name hnone =>
      refine ⟨Value.extends_insert _ hnone, ?_, ?_⟩
      · simp [Settled, Compound.get?_insert]
      · simp [locate, Compound.get?_insert, hcopy pattern rfl]
  | elements value =>
      refine ⟨Value.extends_append [] _, ?_, rfl⟩
      exact List.cons_ne_nil _ _
  | @elementsMatching pattern items =>
      refine ⟨Value.extends_append items _, ?_, rfl⟩
      simp [Settled, hcopy pattern rfl]

theorem ensure_spec {selector : Selector} (hcopy : selector.Copyable) (value : Value)
    (s : Supply) : Ensured selector value ((selector.ensure value).run s).1.1
      ((selector.ensure value).run s).1.2 := by
  by_cases hsettled : selector.Settled value
  · rw [ensure_of_settled hsettled]
    exact ⟨Value.Extends.refl value, hsettled, rfl⟩
  · exact (ensure_of_not_settled hsettled s).ensured hcopy

theorem Grows.sites {selector : Selector} {old new : Value} {picked : List Address}
    (h : Grows selector old new picked) : new.Sites picked := by
  cases h with
  | child => exact Value.sites_singleton (by rw [Value.get?_key, Compound.get?_insert, if_pos rfl])
  | childMatching =>
      exact Value.sites_singleton (by rw [Value.get?_key, Compound.get?_insert, if_pos rfl])
  | elements value => exact Value.sites_singleton (Value.get?_index [value] 0)
  | elementsMatching => exact locate_sites _ _

/-- Whether patterns accept their copies or not, the answer has sites of the new
value. -/
theorem ensure_sites (selector : Selector) (value : Value) (s : Supply) :
    ((selector.ensure value).run s).1.1.Sites ((selector.ensure value).run s).1.2 := by
  by_cases hsettled : selector.Settled value
  · rw [ensure_of_settled hsettled]
    exact locate_sites selector value
  · exact (ensure_of_not_settled hsettled s).sites

theorem any_accepts_iff {pattern : Compound} {items : List Value} :
    items.any pattern.accepts = true
      ↔ (Selector.elementsMatching pattern).locate (.list items) ≠ [] := by
  rw [List.any_eq_true]
  constructor
  · rintro ⟨item, hitem, haccepts⟩ hnil
    obtain ⟨position, hposition⟩ := List.mem_iff_getElem?.mp hitem
    have hmem : [Step.index position]
        ∈ (Selector.elementsMatching pattern).locate (.list items) :=
      mem_locate.mpr ⟨⟨position, rfl⟩, item, by rw [Value.get?_index, hposition], haccepts⟩
    rw [hnil] at hmem
    cases hmem
  · intro hne
    obtain ⟨address, haddress⟩ := List.exists_mem_of_ne_nil _ hne
    obtain ⟨⟨position, rfl⟩, item, hitem, haccepts⟩ := mem_locate.mp haddress
    rw [Value.get?_index] at hitem
    exact ⟨item, List.mem_of_getElem? hitem, haccepts⟩

/-- Whether a value is settled shows in its layout, and in whether anything is
picked. -/
theorem settled_congr {selector : Selector} {first second : Value}
    (hlayout : first.layout = second.layout)
    (hpicked : selector.locate first ≠ [] → selector.locate second ≠ [])
    (h : selector.Settled first) : selector.Settled second := by
  cases second with
  | compound entries' =>
      cases first with
      | compound entries =>
          have hsome := Compound.isSome_get?_congr (Layout.keys.inj hlayout)
          cases selector with
          | child name => exact (hsome name).symm.trans h
          | childMatching name pattern => exact (hsome name).symm.trans h
          | rootMatching pattern => trivial
          | elements => trivial
          | element index => trivial
          | elementsMatching pattern => trivial
      | list items => cases hlayout
      | scalar leaf => cases hlayout
  | list items' =>
      cases first with
      | compound entries => cases hlayout
      | list items =>
          cases selector with
          | child name => trivial
          | childMatching name pattern => trivial
          | rootMatching pattern => trivial
          | elements =>
              rintro rfl
              exact h (List.length_eq_zero_iff.mp (Layout.length.inj hlayout))
          | element index => trivial
          | elementsMatching pattern =>
              exact any_accepts_iff.mpr (hpicked (any_accepts_iff.mp h))
      | scalar leaf => cases hlayout
  | scalar leaf => cases selector <;> trivial

/-- A settled value stays settled when a picked value in it is extended. -/
theorem settled_put {selector : Selector} {value old new : Value} {address : Address}
    (hpick : address ∈ selector.locate value) (hget : value.get? address = some old)
    (hext : new.Extends old) (h : selector.Settled value) :
    selector.Settled (value.put address new) := by
  rcases selector.reach_cases with hreach | ⟨pattern, rfl⟩
  · have hne : address ≠ [] := by
      rintro rfl
      have hlength := length_of_mem_locate hpick
      rw [hreach] at hlength
      cases hlength
    refine settled_congr (Value.layout_put new hne).symm ?_ h
    rw [locate_put hpick hget hext]
    exact id
  · cases value.put address new <;> trivial

end TreeQuery.Selector
