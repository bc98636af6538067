import TreeQuery.Proofs.Address
import TreeQuery.Proofs.Value.Matching
import TreeQuery.Selector.Locate

/-!
# Laws of what a selector picks

A selector aims at some addresses, which it knows from the layout of the value.  Of
these it picks the ones at which there is a value that its pattern accepts
(`mem_locate`).  All of them have the same length, so two different ones part ways.

It follows that the picks depend on nothing but the layout and on what the pattern
accepts (`locate_congr`), and that they stay the same when a picked value is
extended (`locate_put`).

An edit that makes nothing finds its way by another search, and it comes to the same
addresses in the same order (`enter_eq_locate`).
-/

namespace TreeQuery

/-! ## Positions in a list -/

theorem positionsFrom_eq_filter (condition : Value → Bool) (first : Nat) (items : List Value) :
    positionsFrom condition first items
      = ((items.zipIdx first).filter fun (item, _) => condition item).map Prod.snd := by
  induction items generalizing first with
  | nil => rfl
  | cons item rest ih =>
      rw [positionsFrom, List.zipIdx_cons, List.filter_cons, ih (first + 1)]
      split
      · rfl
      · rfl

theorem mem_positionsFrom {condition : Value → Bool} {first place : Nat} {items : List Value} :
    place ∈ positionsFrom condition first items
      ↔ ∃ position item, items[position]? = some item ∧ condition item = true
          ∧ place = first + position := by
  induction items generalizing first with
  | nil => simp [positionsFrom]
  | cons item rest ih =>
      have hrest : place ∈ positionsFrom condition (first + 1) rest
          ↔ ∃ position item', (item :: rest)[position + 1]? = some item'
              ∧ condition item' = true ∧ place = first + (position + 1) := by
        simp only [ih, List.getElem?_cons_succ, Nat.add_assoc, Nat.add_comm 1]
      have hsplit : (∃ position item', (item :: rest)[position]? = some item'
            ∧ condition item' = true ∧ place = first + position)
          ↔ (condition item = true ∧ place = first)
            ∨ place ∈ positionsFrom condition (first + 1) rest := by
        rw [hrest]
        constructor
        · rintro ⟨position, item', hitem, hcondition, hplace⟩
          cases position with
          | zero =>
              obtain rfl := Option.some.inj hitem
              exact .inl ⟨hcondition, hplace⟩
          | succ position => exact .inr ⟨position, item', hitem, hcondition, hplace⟩
        · rintro (⟨hcondition, hplace⟩ | ⟨position, item', hitem, hcondition, hplace⟩)
          · exact ⟨0, item, rfl, hcondition, hplace⟩
          · exact ⟨position + 1, item', hitem, hcondition, hplace⟩
      rw [hsplit, positionsFrom]
      split
      · next hcondition => simp [hcondition]
      · next hcondition => simp [hcondition]

theorem positionsFrom_true (first : Nat) (items : List Value) :
    positionsFrom (fun _ => true) first items = List.range' first items.length := by
  rw [positionsFrom_eq_filter, List.filter_eq_self.mpr fun _ _ => rfl, List.zipIdx_map_snd]

/-- The positions come in their order. -/
theorem pairwise_positionsFrom (condition : Value → Bool) (first : Nat) (items : List Value) :
    (positionsFrom condition first items).Pairwise (· < ·) := by
  rw [positionsFrom_eq_filter]
  refine List.Pairwise.sublist (List.filter_sublist.map Prod.snd) ?_
  rw [List.zipIdx_map_snd]
  exact List.pairwise_lt_range'

theorem nodup_positionsFrom (condition : Value → Bool) (first : Nat) (items : List Value) :
    (positionsFrom condition first items).Nodup :=
  (pairwise_positionsFrom condition first items).imp Nat.ne_of_lt

theorem length_positionsFrom (condition : Value → Bool) (first : Nat) (items : List Value) :
    (positionsFrom condition first items).length = items.countP condition := by
  induction items generalizing first with
  | nil => rfl
  | cons item rest ih =>
      rw [positionsFrom, List.countP_cons, ← ih (first + 1)]
      split
      · rfl
      · rfl

/-- The place of a position is the number of elements before it that satisfy the condition. -/
theorem getElem?_positionsFrom {condition : Value → Bool} {items : List Value} :
    ∀ {first position : Nat} {item : Value}, items[position]? = some item →
      condition item = true →
        (positionsFrom condition first items)[(items.take position).countP condition]?
          = some (first + position) := by
  induction items with
  | nil => exact nofun
  | cons head rest ih =>
      intro first position item hitem hcondition
      cases position with
      | zero =>
          obtain rfl := Option.some.inj hitem
          rw [positionsFrom, if_pos hcondition]
          rfl
      | succ position =>
          have hrest := @ih (first + 1) position item hitem hcondition
          rw [List.take_succ_cons, List.countP_cons, positionsFrom]
          split
          · rw [List.getElem?_cons_succ, hrest, Nat.add_assoc, Nat.add_comm 1]
          · exact hrest.trans (by rw [Nat.add_assoc, Nat.add_comm 1])

/-- The positions depend only on which elements satisfy the condition. -/
theorem positionsFrom_congr {condition condition' : Value → Bool} {items items' : List Value}
    (h : items.map condition = items'.map condition') (first : Nat) :
    positionsFrom condition first items = positionsFrom condition' first items' := by
  induction items generalizing first items' with
  | nil =>
      rw [List.map_nil, eq_comm, List.map_eq_nil_iff] at h
      rw [h, positionsFrom, positionsFrom]
  | cons item rest ih =>
      cases items' with
      | nil => cases h
      | cons item' rest' =>
          rw [List.map_cons, List.map_cons] at h
          obtain ⟨hitem, hrest⟩ := List.cons.inj h
          simp only [positionsFrom, hitem, ih hrest]

namespace Selector

/-! ## Aims and picks -/

/-- The number of steps to what the selector picks. -/
def reach : Selector → Nat
  | .rootMatching _ => 0
  | _ => 1

theorem reach_cases (selector : Selector) :
    selector.reach = 1 ∨ ∃ pattern, selector = .rootMatching pattern := by
  cases selector with
  | rootMatching pattern => exact .inr ⟨pattern, rfl⟩
  | child name => exact .inl rfl
  | childMatching name pattern => exact .inl rfl
  | elements => exact .inl rfl
  | element index => exact .inl rfl
  | elementsMatching pattern => exact .inl rfl

/-- The pattern of a selector. -/
def pattern? : Selector → Option Compound
  | .childMatching _ pattern | .rootMatching pattern | .elementsMatching pattern => some pattern
  | .child _ | .elements | .element _ => none

/-- The selector has no pattern, or its pattern accepts the value. -/
def admits (selector : Selector) (value : Value) : Bool :=
  selector.pattern?.all fun pattern => pattern.accepts value

/-- The pattern of the selector, if it has one, accepts its own copy. -/
def Copyable (selector : Selector) : Prop :=
  ∀ pattern ∈ selector.pattern?, pattern.accepts (.compound pattern) = true

theorem reach_of_plain {selector : Selector} (h : selector.pattern? = none) :
    selector.reach = 1 := by
  rcases selector.reach_cases with hreach | ⟨pattern, rfl⟩
  · exact hreach
  · cases h

theorem copyable_of_plain {selector : Selector} (h : selector.pattern? = none) :
    selector.Copyable := by
  intro pattern hpattern
  rw [h] at hpattern
  cases hpattern

/-- The addresses the selector aims at in a value of the given layout. -/
def Aims : Selector → Layout → Address → Prop
  | .child name, _, address | .childMatching name _, _, address => address = [.key name]
  | .rootMatching _, _, address => address = []
  | .elements, _, address | .elementsMatching _, _, address =>
      ∃ position, address = [.index position]
  | .element index, .length count, address =>
      ∃ position, resolveIndex index count = some position ∧ address = [.index position]
  | .element _, _, _ => False

theorem Aims.length {selector : Selector} {layout : Layout} {address : Address}
    (h : selector.Aims layout address) : address.length = selector.reach := by
  cases selector with
  | child name => rw [show address = [.key name] from h]; rfl
  | childMatching name pattern => rw [show address = [.key name] from h]; rfl
  | rootMatching pattern => rw [show address = [] from h]; rfl
  | elements =>
      obtain ⟨position, rfl⟩ := h
      rfl
  | element index =>
      cases layout with
      | keys names => exact h.elim
      | length count =>
          obtain ⟨position, -, rfl⟩ := h
          rfl
      | leaf s => exact h.elim
  | elementsMatching pattern =>
      obtain ⟨position, rfl⟩ := h
      rfl

theorem mem_locate_key {entries : Compound} {name : String} {condition : Value → Bool}
    {address : Address} :
    (address ∈ if (Compound.get? entries name).any condition then [[Step.key name]] else [])
      ↔ address = [.key name] ∧ ∃ inner, (Value.compound entries).get? address = some inner
          ∧ condition inner = true := by
  constructor
  · intro h
    split at h
    · next hany =>
      obtain rfl := List.mem_singleton.mp h
      obtain ⟨inner, hinner, hcondition⟩ := (Option.any_eq_true _ _).mp hany
      exact ⟨rfl, inner, by rw [Value.get?_key, hinner], hcondition⟩
    · cases h
  · rintro ⟨rfl, inner, hinner, hcondition⟩
    rw [Value.get?_key] at hinner
    rw [if_pos ((Option.any_eq_true _ _).mpr ⟨inner, hinner, hcondition⟩)]
    exact List.mem_singleton_self _

theorem mem_locate_index {items : List Value} {condition : Value → Bool} {address : Address} :
    address ∈ (positionsFrom condition 0 items).map (fun position => [Step.index position])
      ↔ (∃ position, address = [.index position])
          ∧ ∃ inner, (Value.list items).get? address = some inner ∧ condition inner = true := by
  rw [List.mem_map]
  constructor
  · rintro ⟨place, hplace, rfl⟩
    obtain ⟨position, item, hitem, hcondition, hsum⟩ := mem_positionsFrom.mp hplace
    rw [Nat.zero_add] at hsum
    subst hsum
    exact ⟨⟨place, rfl⟩, item, by rw [Value.get?_index, hitem], hcondition⟩
  · rintro ⟨⟨position, rfl⟩, item, hitem, hcondition⟩
    rw [Value.get?_index] at hitem
    exact ⟨position, mem_positionsFrom.mpr ⟨position, item, hitem, hcondition, by omega⟩, rfl⟩

/-- The selector picks the addresses it aims at where it admits what is there. -/
theorem mem_locate {selector : Selector} {value : Value} {address : Address} :
    address ∈ selector.locate value ↔ selector.Aims value.layout address
      ∧ ∃ inner, value.get? address = some inner ∧ selector.admits inner = true := by
  cases selector with
  | child name =>
      cases value with
      | compound entries =>
          have hsome : (Compound.get? entries name).isSome
              = (Compound.get? entries name).any fun _ => true := by
            cases Compound.get? entries name <;> rfl
          rw [locate, hsome]
          exact mem_locate_key
      | list items => simp +contextual [locate, Aims, Value.get?, Value.child?]
      | scalar s => simp +contextual [locate, Aims, Value.get?, Value.child?]
  | childMatching name pattern =>
      cases value with
      | compound entries => exact mem_locate_key
      | list items => simp +contextual [locate, Aims, Value.get?, Value.child?]
      | scalar s => simp +contextual [locate, Aims, Value.get?, Value.child?]
  | rootMatching pattern =>
      by_cases h : pattern.accepts value = true
      · simp +contextual [locate, Aims, admits, pattern?, h]
      · simp +contextual [locate, Aims, admits, pattern?, h]
  | elements =>
      cases value with
      | compound entries => simp +contextual [locate, Aims, Value.get?, Value.child?]
      | list items => exact mem_locate_index
      | scalar s => simp +contextual [locate, Aims, Value.get?, Value.child?]
  | element index =>
      cases value with
      | compound entries => simp [locate, Aims, Value.layout]
      | list items =>
          simp only [locate, Aims, Value.layout, List.mem_map, Option.mem_toList]
          constructor
          · rintro ⟨position, hposition, rfl⟩
            have hlt := resolveIndex_bound hposition
            refine ⟨⟨position, hposition, rfl⟩, items[position], ?_, rfl⟩
            rw [Value.get?_index, List.getElem?_eq_getElem hlt]
          · rintro ⟨⟨position, hposition, rfl⟩, -⟩
            exact ⟨position, hposition, rfl⟩
      | scalar s => simp [locate, Aims, Value.layout]
  | elementsMatching pattern =>
      cases value with
      | compound entries => simp +contextual [locate, Aims, Value.get?, Value.child?]
      | list items => exact mem_locate_index
      | scalar s => simp +contextual [locate, Aims, Value.get?, Value.child?]

theorem length_of_mem_locate {selector : Selector} {value : Value} {address : Address}
    (h : address ∈ selector.locate value) : address.length = selector.reach :=
  (mem_locate.mp h).1.length

/-- What a selector picks in two values parts ways, unless it is the same place. -/
theorem disjoint_of_mem_locate {selector : Selector} {value value' : Value}
    {first second : Address} (h : first ∈ selector.locate value)
    (h' : second ∈ selector.locate value') (hne : first ≠ second) :
    Address.Disjoint first second :=
  Address.disjoint_of_length_eq ((length_of_mem_locate h).trans (length_of_mem_locate h').symm) hne

/-- What holds of two elements of a list, the earlier one first, holds of the picks in
their order. -/
theorem pairwise_locate {r : Address → Address → Prop}
    (hr : ∀ i j : Nat, i < j → r [.index i] [.index j]) (selector : Selector) (value : Value) :
    (selector.locate value).Pairwise r := by
  have hpositions : ∀ (condition : Value → Bool) (items : List Value),
      ((positionsFrom condition 0 items).map fun position => [Step.index position]).Pairwise r :=
    fun condition items => List.Pairwise.map _ hr (pairwise_positionsFrom condition 0 items)
  unfold locate
  split
  · split
    · exact List.pairwise_singleton _ _
    · exact List.Pairwise.nil
  · split
    · exact List.pairwise_singleton _ _
    · exact List.Pairwise.nil
  · split
    · exact List.pairwise_singleton _ _
    · exact List.Pairwise.nil
  · exact hpositions _ _
  · next index items =>
    cases resolveIndex index items.length with
    | none => exact List.Pairwise.nil
    | some position => exact List.pairwise_singleton _ _
  · exact hpositions _ _
  · exact List.Pairwise.nil

theorem nodup_locate (selector : Selector) (value : Value) : (selector.locate value).Nodup := by
  refine selector.pairwise_locate (fun i j hlt heq => ?_) value
  exact Nat.ne_of_lt hlt (Step.index.inj (List.cons.inj heq).1)

theorem pairwise_disjoint_locate (selector : Selector) (value : Value) :
    (selector.locate value).Pairwise Address.Disjoint :=
  Address.pairwise_disjoint (nodup_locate selector value) fun _ h => length_of_mem_locate h

theorem locate_sites (selector : Selector) (value : Value) :
    value.Sites (selector.locate value) := by
  refine ⟨pairwise_disjoint_locate selector value, fun address h => ?_⟩
  obtain ⟨-, inner, hinner, -⟩ := mem_locate.mp h
  exact ⟨inner, hinner⟩

/-! ## When the picks stay the same -/

theorem any_get?_congr {first second : Compound} {name : String} {condition : Value → Bool}
    (hkeys : Compound.keys first = Compound.keys second)
    (h : ∀ inner inner', Compound.get? first name = some inner →
      Compound.get? second name = some inner' → condition inner = condition inner') :
    (Compound.get? first name).any condition = (Compound.get? second name).any condition := by
  have hsome := Compound.isSome_get?_congr hkeys name
  cases hfirst : Compound.get? first name with
  | none =>
      rw [hfirst, Option.isSome_none, eq_comm, Option.isSome_eq_false_iff,
        Option.isNone_iff_eq_none] at hsome
      rw [hsome]
  | some inner =>
      rw [hfirst, Option.isSome_some, eq_comm, Option.isSome_iff_exists] at hsome
      obtain ⟨inner', hsecond⟩ := hsome
      rw [hsecond, Option.any_some, Option.any_some]
      exact h inner inner' hfirst hsecond

theorem map_congr_of_length {first second : List Value} {condition : Value → Bool}
    (hlength : first.length = second.length)
    (h : ∀ (position : Nat) (inner inner' : Value), first[position]? = some inner →
      second[position]? = some inner' → condition inner = condition inner') :
    first.map condition = second.map condition := by
  refine List.ext_getElem (by simp [hlength]) fun position hfirst hsecond => ?_
  rw [List.length_map] at hfirst hsecond
  rw [List.getElem_map, List.getElem_map]
  exact h position _ _ (List.getElem?_eq_getElem hfirst) (List.getElem?_eq_getElem hsecond)

/-- The picks depend on the layout and on what the selector admits. -/
theorem locate_congr {selector : Selector} {first second : Value}
    (hreach : selector.reach = 1) (hlayout : first.layout = second.layout)
    (hadmits : ∀ address inner inner', selector.Aims first.layout address →
      first.get? address = some inner → second.get? address = some inner' →
      selector.admits inner = selector.admits inner') :
    selector.locate first = selector.locate second := by
  cases first with
  | compound entries =>
      cases second with
      | compound entries' =>
          have hkeys : Compound.keys entries = Compound.keys entries' := Layout.keys.inj hlayout
          cases selector with
          | child name => rw [locate, locate, Compound.isSome_get?_congr hkeys name]
          | childMatching name pattern =>
              rw [locate, locate, any_get?_congr hkeys]
              intro inner inner' hinner hinner'
              rw [← Value.get?_key] at hinner hinner'
              exact hadmits [.key name] inner inner' rfl hinner hinner'
          | rootMatching pattern => cases hreach
          | elements => rfl
          | element index => rfl
          | elementsMatching pattern => rfl
      | list items => cases hlayout
      | scalar s => cases hlayout
  | list items =>
      cases second with
      | compound entries => cases hlayout
      | list items' =>
          have hlength : items.length = items'.length := Layout.length.inj hlayout
          cases selector with
          | child name => rfl
          | childMatching name pattern => rfl
          | rootMatching pattern => cases hreach
          | elements =>
              rw [locate, locate,
                positionsFrom_congr (map_congr_of_length hlength fun _ _ _ _ _ => rfl)]
          | element index => rw [locate, locate, hlength]
          | elementsMatching pattern =>
              rw [locate, locate, positionsFrom_congr (map_congr_of_length hlength ?_)]
              intro position inner inner' hinner hinner'
              rw [← Value.get?_index] at hinner hinner'
              exact hadmits [.index position] inner inner' ⟨position, rfl⟩ hinner hinner'
      | scalar s => cases hlayout
  | scalar s =>
      cases second with
      | compound entries => cases hlayout
      | list items => cases hlayout
      | scalar s' =>
          cases selector with
          | rootMatching pattern => cases hreach
          | child name => rfl
          | childMatching name pattern => rfl
          | elements => rfl
          | element index => rfl
          | elementsMatching pattern => rfl

theorem admits_of_extends {selector : Selector} {old new : Value} (hext : new.Extends old)
    (h : selector.admits old = true) : selector.admits new = true := by
  rw [Selector.admits] at h ⊢
  cases hpattern : selector.pattern? with
  | none => rfl
  | some pattern =>
      rw [hpattern] at h
      exact hext (.compound pattern) h

/-- What is picked stays picked when it is extended, and so does everything else. -/
theorem locate_put {selector : Selector} {value old new : Value} {address : Address}
    (hpick : address ∈ selector.locate value) (hget : value.get? address = some old)
    (hext : new.Extends old) : selector.locate (value.put address new) = selector.locate value := by
  obtain ⟨haims, inner, hinner, hadmits⟩ := mem_locate.mp hpick
  obtain rfl := Option.some.inj (hget.symm.trans hinner)
  have hnew : selector.admits new = true := admits_of_extends hext hadmits
  rcases selector.reach_cases with hreach | ⟨pattern, rfl⟩
  · have hne : ¬address <+: [] := by
      intro hle
      have hlength := haims.length
      rw [List.prefix_nil.mp hle, hreach] at hlength
      cases hlength
    have hlayout : (value.put address new).layout = value.layout := by
      have hmap := Value.map_layout_get?_put value new hne
      rw [Value.get?_nil, Value.get?_nil] at hmap
      exact Option.some.inj hmap
    refine locate_congr hreach hlayout fun other inner inner' hother hinner hinner' => ?_
    by_cases hsame : address = other
    · subst hsame
      rw [Value.get?_put_self new hget] at hinner
      obtain rfl := Option.some.inj hinner
      obtain rfl := Option.some.inj (hget.symm.trans hinner')
      rw [hnew, hadmits]
    · have hlength : address.length = other.length := haims.length.trans hother.length.symm
      rw [Value.get?_put_disjoint value new (Address.disjoint_of_length_eq hlength hsame),
        hinner'] at hinner
      rw [Option.some.inj hinner]
  · obtain rfl : address = [] := haims
    rw [Value.get?_nil] at hget
    obtain rfl := Option.some.inj hget
    rw [Value.put_nil]
    exact (if_pos hnew).trans (if_pos hadmits).symm

/-! ## Entering -/

/-- An edit goes on at what the selector picks. -/
theorem enter_eq_locate (selector : Selector) (value : Value) :
    selector.enter value = selector.locate value := by
  cases selector with
  | rootMatching pattern => rfl
  | child name =>
      cases value with
      | compound entries =>
          rw [enter, locate]
          cases Compound.get? entries name <;> rfl
      | list items => rfl
      | scalar s => rfl
  | childMatching name pattern =>
      cases value with
      | compound entries =>
          rw [enter, locate]
          cases Compound.get? entries name with
          | none => rfl
          | some inner =>
              rw [Option.filter_some, Option.any_some]
              split
              · rfl
              · rfl
      | list items => rfl
      | scalar s => rfl
  | elements =>
      cases value with
      | compound entries => rfl
      | list items =>
          rw [enter, locate, positionsFrom_eq_filter, List.map_map]
          simp [Function.comp_def]
      | scalar s => rfl
  | element index =>
      cases value with
      | compound entries => rfl
      | list items =>
          rw [enter, locate]
          cases hposition : resolveIndex index items.length with
          | none => rfl
          | some position =>
              have hitem := List.getElem?_eq_getElem (resolveIndex_bound hposition)
              simp [hitem]
      | scalar s => rfl
  | elementsMatching pattern =>
      cases value with
      | compound entries => rfl
      | list items =>
          rw [enter, locate, positionsFrom_eq_filter, List.map_map]
          rfl
      | scalar s => rfl

theorem enterEach_eq_locateEach (selector : Selector) (root : Value) (addresses : List Address) :
    selector.enterEach root addresses = selector.locateEach root addresses := by
  simp only [enterEach, locateEach, enter_eq_locate]

end Selector

end TreeQuery
