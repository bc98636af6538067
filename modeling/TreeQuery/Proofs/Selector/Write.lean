import TreeQuery.Proofs.Selector.Locate
import TreeQuery.Selector.Edit

/-!
# Laws of writing

A selector writes to its *slots* in a value.  These are what it picks, except that
a missing child and the first element of an empty list are slots as well.

`Value.Written` says what a write of one value to some slots means: every slot holds
the value, or an old value that equals it, nothing else has changed, and the count
is that of the slots that did not hold an equal value before.  Writing by a selector
is such a write to its slots (`Selector.write_spec`), and `Selector.layoutAfter` is
the layout it leaves.
-/

namespace TreeQuery

/-! ## Supplies -/

namespace Supply

/-- The supply after one more value has been taken. -/
def rest (s : Supply) : Supply := { s with used := s.used + 1 }

theorem run_next_bind {α : Type} (s : Supply) (use : Value → Supplied α) :
    (next >>= use).run s = (use (s.value s.used)).run s.rest := rfl

/-- Values taken in a row are the next ones in order. -/
theorem run_take (s : Supply) (count : Nat) :
    (take count).run s
      = ((List.range' s.used count).map s.value, ⟨s.value, s.used + count⟩) := by
  induction count generalizing s with
  | zero => rfl
  | succ count ih =>
      rw [take, run_next_bind]
      show (s.value s.used :: ((take count).run s.rest).1, ((take count).run s.rest).2) = _
      rw [ih, List.range'_succ, List.map_cons, rest]
      dsimp only
      rw [Nat.add_assoc, Nat.add_comm 1]

end Supply

/-- The supply gives one value again and again. -/
def Supply.Constant (value : Value) (s : Supply) : Prop := ∀ number, s.value number = value

theorem Supply.constant_always (value : Value) : (Supply.always value).Constant value :=
  fun _ => rfl

theorem Supply.Constant.rest {value : Value} {s : Supply} (h : s.Constant value) :
    s.rest.Constant value := h

theorem Supply.Constant.run_next_bind {α : Type} {value : Value} {s : Supply}
    (h : s.Constant value) (use : Value → Supplied α) :
    (Supply.next >>= use).run s = (use value).run s.rest := by
  rw [Supply.run_next_bind, h]

theorem Supply.Constant.take {value : Value} {s : Supply} (h : s.Constant value) (count : Nat) :
    ((Supply.take count).run s).1 = List.replicate count value
      ∧ ((Supply.take count).run s).2.Constant value := by
  rw [Supply.run_take]
  refine ⟨?_, h⟩
  rw [List.map_congr_left fun number _ => h number, List.map_const', List.length_range']

/-! ## Writes to slots -/

/-- One value has been written to some slots, and the count is that of the
changes. -/
structure Value.Written (value : Value) (slots : List Address) (before after : Value)
    (count : Nat) : Prop where
  /-- The slots part from each other. -/
  apart : slots.Pairwise Address.Disjoint
  /-- Every slot holds the value, or as before one that equals it. -/
  holds : ∀ slot ∈ slots, ∃ found, after.get? slot = some found
    ∧ (found = value ∨ before.get? slot = some found ∧ found.equal value = true)
  /-- Apart from the slots nothing has changed. -/
  frame : ∀ a, (∀ slot ∈ slots, Address.Disjoint slot a) → after.get? a = before.get? a
  /-- The changes are the slots that did not hold an equal value. -/
  counted : count = slots.countP fun slot => !(before.get? slot).any (·.equal value)

namespace Value.Written

variable {value before after : Value} {count : Nat}

/-- Nothing need be written where an equal value is. -/
theorem of_equal {slots : List Address} (hapart : slots.Pairwise Address.Disjoint)
    (h : ∀ slot ∈ slots, ∃ old, before.get? slot = some old ∧ old.equal value = true) :
    Written value slots before before 0 := by
  refine ⟨hapart, ?_, fun _ _ => rfl, ?_⟩
  · intro slot hslot
    obtain ⟨old, hold, hequal⟩ := h slot hslot
    exact ⟨old, hold, .inr ⟨hold, hequal⟩⟩
  · rw [eq_comm, List.countP_eq_zero]
    intro slot hslot
    obtain ⟨old, hold, hequal⟩ := h slot hslot
    rw [hold, Option.any_some, hequal]
    decide

/-- A write to children shows in what the children are. -/
theorem of_children {steps : List Step} (hnodup : steps.Nodup)
    (hempty : steps = [] → after = before)
    (hholds : ∀ step ∈ steps, ∃ found, after.child? step = some found
      ∧ (found = value ∨ before.child? step = some found ∧ found.equal value = true))
    (hframe : ∀ step, step ∉ steps → after.child? step = before.child? step)
    (hcount : count = steps.countP fun step => !(before.child? step).any (·.equal value)) :
    Written value (steps.map fun step => [step]) before after count := by
  have hsingle : ∀ (tree : Value) (step : Step), tree.get? [step] = tree.child? step := by
    intro tree step
    simp [Value.get?]
  refine ⟨?_, ?_, ?_, ?_⟩
  · have hlength : ∀ a ∈ steps.map fun step => [step], a.length = 1 := by
      intro a ha
      obtain ⟨step, -, rfl⟩ := List.mem_map.mp ha
      rfl
    refine Address.pairwise_disjoint (List.Pairwise.map _ ?_ hnodup) hlength
    exact fun _ _ hne heq => hne (List.cons.inj heq).1
  · intro slot hslot
    obtain ⟨step, hstep, rfl⟩ := List.mem_map.mp hslot
    rw [hsingle, hsingle]
    exact hholds step hstep
  · intro a ha
    cases a with
    | nil =>
        cases steps with
        | nil => rw [hempty rfl]
        | cons step rest => exact absurd List.nil_prefix (ha [step] (List.mem_cons_self ..)).2
    | cons step rest =>
        have hnot : step ∉ steps := by
          intro hmem
          exact (ha [step] (List.mem_map_of_mem hmem)).1 (List.prefix_append [step] rest)
        simp only [Value.get?, hframe step hnot]
  · rw [hcount, List.countP_map]
    simp only [Function.comp_def, hsingle]

/-- A key with an equal value stays as it is. -/
theorem equal_key {entries : Compound} {name : String}
    (h : (Compound.get? entries name).any (·.equal value) = true) :
    Written value [[.key name]] (.compound entries) (.compound entries) 0 := by
  obtain ⟨old, hold, hequal⟩ := (Option.any_eq_true _ _).mp h
  refine .of_equal (List.pairwise_singleton _ _) (List.forall_mem_singleton.mpr ?_)
  exact ⟨old, (Value.get?_key entries name).trans hold, hequal⟩

/-- A value is written to a key. -/
theorem insert {entries : Compound} {name : String}
    (h : (Compound.get? entries name).any (·.equal value) = false) :
    Written value [[.key name]] (.compound entries)
      (.compound (Compound.insert entries name value)) 1 := by
  refine @of_children value _ _ 1 [.key name] (List.pairwise_singleton _ _) nofun ?_ ?_ ?_
  · rw [List.forall_mem_singleton]
    exact ⟨value, by rw [Value.child?, Compound.get?_insert, if_pos rfl], .inl rfl⟩
  · intro step hstep
    cases step with
    | key other =>
        have hne : name ≠ other := by
          rintro rfl
          exact hstep (List.mem_singleton_self _)
        rw [Value.child?, Value.child?, Compound.get?_insert, if_neg hne]
    | index position => rfl
  · rw [List.countP_singleton, Value.child?, h]
    rfl

/-- A write to elements keeps the length of the list. -/
theorem of_items {items items' : List Value} {positions : List Nat} (hnodup : positions.Nodup)
    (hbound : ∀ position ∈ positions, position < items'.length)
    (hholds : ∀ position ∈ positions, ∀ found, items'[position]? = some found →
      found = value ∨ items[position]? = some found ∧ found.equal value = true)
    (hframe : ∀ position, position ∉ positions → items'[position]? = items[position]?)
    (hcount : count = positions.countP fun position => !(items[position]?).any (·.equal value)) :
    Written value (positions.map fun position => [.index position]) (.list items) (.list items')
      count := by
  have hslots : (positions.map fun position => [Step.index position])
      = (positions.map Step.index).map fun step => [step] := by
    rw [List.map_map]
    rfl
  rw [hslots]
  refine of_children ?_ ?_ ?_ ?_ ?_
  · exact List.Pairwise.map _ (fun _ _ hne heq => hne (Step.index.inj heq)) hnodup
  · intro hnil
    rw [List.map_eq_nil_iff] at hnil
    subst hnil
    rw [List.ext_getElem? fun position => hframe position List.not_mem_nil]
  · intro step hstep
    obtain ⟨position, hposition, rfl⟩ := List.mem_map.mp hstep
    have hlt := hbound position hposition
    have hget : items'[position]? = some items'[position] := List.getElem?_eq_getElem hlt
    exact ⟨_, hget, hholds position hposition _ hget⟩
  · intro step hstep
    cases step with
    | key name => rfl
    | index position =>
        refine hframe position fun hmem => hstep (List.mem_map_of_mem hmem)
  · rw [hcount, List.countP_map]
    rfl

end Value.Written

namespace Selector

/-! ## Slots -/

/-- The places a selector writes to in a value. -/
def slots : Selector → Value → List Address
  | .child name, .compound _ => [[.key name]]
  | .elements, .list [] => [[.index 0]]
  | .rootMatching _, _ => []
  | selector, value => selector.locate value

/-- The layout of a value after the selector has written to it.  A missing key comes
after the others, and an empty list gets its first element. -/
def layoutAfter : Selector → Value → Layout
  | .child name, .compound entries =>
      .keys (if name ∈ Compound.keys entries then Compound.keys entries
        else Compound.keys entries ++ [name])
  | .elements, .list [] => .length 1
  | _, value => value.layout

theorem length_of_mem_slots {selector : Selector} {value : Value} {slot : Address}
    (h : slot ∈ selector.slots value) : slot.length = 1 := by
  unfold slots at h
  split at h
  · rw [List.mem_singleton.mp h]
    rfl
  · rw [List.mem_singleton.mp h]
    rfl
  · cases h
  · next hroot _ _ =>
    rw [length_of_mem_locate h]
    rcases selector.reach_cases with hreach | ⟨pattern, rfl⟩
    · exact hreach
    · exact absurd rfl (hroot pattern)

theorem pairwise_disjoint_slots (selector : Selector) (value : Value) :
    (selector.slots value).Pairwise Address.Disjoint := by
  unfold slots
  split
  · exact List.pairwise_singleton _ _
  · exact List.pairwise_singleton _ _
  · exact List.Pairwise.nil
  · exact pairwise_disjoint_locate selector value

/-! ## Writing to keys -/

/-- What writing one value by a selector does to a value. -/
structure Wrote (selector : Selector) (value old new : Value) (count : Nat) : Prop where
  /-- The value was written to the slots. -/
  written : Value.Written value (selector.slots old) old new count
  /-- The layout has changed as it must. -/
  layout : new.layout = selector.layoutAfter old
  /-- Where no change was counted there is none. -/
  unchanged : count = 0 → new = old

variable {value : Value} {s : Supply}

theorem Wrote.nothing {selector : Selector} (value : Value) {old : Value}
    (hslots : selector.slots old = []) (hlayout : selector.layoutAfter old = old.layout) :
    selector.Wrote value old old 0 := by
  refine ⟨?_, hlayout.symm, fun _ => rfl⟩
  rw [hslots]
  exact .of_equal List.Pairwise.nil nofun

theorem write_child (hs : s.Constant value) (name : String) (entries : Compound) :
    (Selector.child name).Wrote value (.compound entries)
        (((Selector.child name).write (.compound entries)).run s).1.1
        (((Selector.child name).write (.compound entries)).run s).1.2
      ∧ (((Selector.child name).write (.compound entries)).run s).2.Constant value := by
  rw [write, hs.run_next_bind]
  split
  · next hequal =>
    obtain ⟨old, hold, -⟩ := (Option.any_eq_true _ _).mp hequal
    have hmem : name ∈ Compound.keys entries :=
      Compound.get?_isSome_iff_mem_keys.mp (Option.isSome_iff_exists.mpr ⟨old, hold⟩)
    refine ⟨⟨Value.Written.equal_key hequal, ?_, fun _ => rfl⟩, hs.rest⟩
    rw [layoutAfter, if_pos hmem]
    rfl
  · next hdiffers =>
    refine ⟨⟨Value.Written.insert (Bool.not_eq_true _ |>.mp hdiffers), ?_, nofun⟩, hs.rest⟩
    rw [layoutAfter, ← Compound.keys_insert entries name value]
    rfl

theorem write_childMatching (hs : s.Constant value) (name : String) (pattern entries : Compound) :
    (Selector.childMatching name pattern).Wrote value (.compound entries)
        (((Selector.childMatching name pattern).write (.compound entries)).run s).1.1
        (((Selector.childMatching name pattern).write (.compound entries)).run s).1.2
      ∧ (((Selector.childMatching name pattern).write (.compound entries)).run s).2.Constant
          value := by
  have hslots : (Selector.childMatching name pattern).slots (.compound entries)
      = if (Compound.get? entries name).any pattern.accepts then [[.key name]] else [] := rfl
  rw [write]
  cases hold : Compound.get? entries name with
  | none =>
      refine ⟨Wrote.nothing value ?_ rfl, hs⟩
      rw [hslots, hold]
      rfl
  | some old =>
      rw [hold, Option.any_some] at hslots
      dsimp only
      by_cases haccepts : pattern.accepts old = true
      · rw [if_pos haccepts] at hslots
        rw [if_pos haccepts, hs.run_next_bind, overwrite]
        split
        · next hequal =>
          have hany : (Compound.get? entries name).any (·.equal value) = true := by
            rw [hold]
            exact hequal
          show (Selector.childMatching name pattern).Wrote value (.compound entries)
            (.compound (Compound.insert entries name old)) 0 ∧ s.rest.Constant value
          rw [Compound.insert_of_get?_eq_some hold]
          refine ⟨⟨?_, rfl, fun _ => rfl⟩, hs.rest⟩
          rw [hslots]
          exact Value.Written.equal_key hany
        · next hdiffers =>
          have hany : (Compound.get? entries name).any (·.equal value) = false := by
            rw [hold]
            exact (Bool.not_eq_true _).mp hdiffers
          refine ⟨⟨?_, ?_, nofun⟩, hs.rest⟩
          · rw [hslots]
            exact Value.Written.insert hany
          · have hmem : name ∈ Compound.keys entries :=
              Compound.get?_isSome_iff_mem_keys.mp (Option.isSome_iff_exists.mpr ⟨old, hold⟩)
            have hkeys := Compound.keys_insert entries name value
            rw [if_pos hmem] at hkeys
            exact congrArg Layout.keys hkeys
      · rw [if_neg haccepts] at hslots
        rw [if_neg haccepts]
        exact ⟨Wrote.nothing value hslots rfl, hs⟩

/-! ## Writing to elements -/

/-- The positions of the elements that satisfy two conditions. -/
theorem countP_positionsFrom {condition holds : Value → Bool} {test : Nat → Bool} {first : Nat}
    {items : List Value} (h : ∀ position item, items[position]? = some item →
      test (first + position) = holds item) :
    (positionsFrom condition first items).countP test
      = items.countP fun item => condition item && holds item := by
  induction items generalizing first with
  | nil => rfl
  | cons item rest ih =>
      have hitem : test first = holds item := h 0 item rfl
      have hrest := @ih (first + 1) fun position other hother => by
        rw [Nat.add_assoc, Nat.add_comm 1]
        exact h (position + 1) other hother
      rw [positionsFrom, List.countP_cons, ← hrest]
      by_cases hcondition : condition item = true
      · rw [if_pos hcondition, List.countP_cons, hitem, hcondition, Bool.true_and]
      · rw [if_neg hcondition, Bool.not_eq_true _ |>.mp hcondition]
        rfl

theorem overwrite_snd (old value : Value) :
    (overwrite old value).2 = if !old.equal value then 1 else 0 := by
  rw [overwrite]
  cases old.equal value <;> rfl

theorem overwriteEach_run (hs : s.Constant value) (condition : Value → Bool)
    (items : List Value) :
    ((overwriteEach condition items).run s).1
        = (items.map fun item => if condition item then (overwrite item value).1 else item,
          items.countP fun item => condition item && !item.equal value)
      ∧ ((overwriteEach condition items).run s).2.Constant value := by
  induction items generalizing s with
  | nil => exact ⟨rfl, hs⟩
  | cons item rest ih =>
      rw [overwriteEach, List.map_cons, List.countP_cons]
      by_cases hcondition : condition item = true
      · obtain ⟨hrest, hlast⟩ := ih hs.rest
        rw [if_pos hcondition, if_pos hcondition, hs.run_next_bind, hcondition, Bool.true_and,
          ← overwrite_snd, Nat.add_comm]
        refine ⟨?_, hlast⟩
        show ((overwrite item value).1 :: ((overwriteEach condition rest).run s.rest).1.1,
          (overwrite item value).2 + ((overwriteEach condition rest).run s.rest).1.2) = _
        rw [hrest]
      · obtain ⟨hrest, hlast⟩ := ih hs
        rw [if_neg hcondition, if_neg hcondition, Bool.not_eq_true _ |>.mp hcondition]
        refine ⟨?_, hlast⟩
        show (item :: ((overwriteEach condition rest).run s).1.1,
          ((overwriteEach condition rest).run s).1.2) = _
        rw [hrest]
        rfl

theorem refill_run (hs : s.Constant value) {items : List Value} (hne : items ≠ []) :
    ((refill items).run s).1
        = (if items.countP (fun item => !item.equal value) = 0 then items
            else List.replicate items.length value,
          items.countP fun item => !item.equal value)
      ∧ ((refill items).run s).2.Constant value := by
  rw [refill, hs.run_next_bind]
  dsimp only
  split
  · next hnone =>
    refine ⟨?_, hs.rest⟩
    rw [hnone]
    rfl
  · next hsome =>
    obtain ⟨htake, hlast⟩ := hs.rest.take (items.length - 1)
    refine ⟨?_, hlast⟩
    show (value :: ((Supply.take (items.length - 1)).run s.rest).1, _) = _
    have hlength : items.length = items.length - 1 + 1 := by
      have hpos := List.length_pos_iff.mpr hne
      omega
    rw [htake, ← List.replicate_succ, ← hlength]

theorem overwrite_cases (old value : Value) :
    (overwrite old value).1 = value
      ∨ old = (overwrite old value).1 ∧ (overwrite old value).1.equal value = true := by
  rw [overwrite]
  split
  · next hequal => exact .inr ⟨rfl, hequal⟩
  · exact .inl rfl

theorem overwrite_unchanged {old value : Value} (h : (overwrite old value).2 = 0) :
    (overwrite old value).1 = old := by
  rw [overwrite] at h ⊢
  split at h
  · next hequal => rw [if_pos hequal]
  · cases h

theorem overwriteEach_unchanged {condition : Value → Bool} {items : List Value}
    (h : (items.countP fun item => condition item && !item.equal value) = 0) :
    (items.map fun item => if condition item then (overwrite item value).1 else item) = items := by
  have hsame : ∀ item ∈ items,
      (if condition item then (overwrite item value).1 else item) = id item := by
    intro item hitem
    have hnot := List.countP_eq_zero.mp h item hitem
    split
    · next hcondition =>
      have hequal : item.equal value = true := by simpa [hcondition] using hnot
      rw [overwrite, if_pos hequal, id_eq]
    · rfl
  rw [List.map_congr_left hsame, List.map_id]

/-- Elements are overwritten one by one where a condition holds. -/
theorem written_overwriteEach (value : Value) (condition : Value → Bool) (items : List Value) :
    Value.Written value ((positionsFrom condition 0 items).map fun position => [.index position])
      (.list items)
      (.list (items.map fun item => if condition item then (overwrite item value).1 else item))
      (items.countP fun item => condition item && !item.equal value) := by
  refine .of_items (nodup_positionsFrom condition 0 items) ?_ ?_ ?_ ?_
  · intro position hposition
    obtain ⟨place, item, hitem, -, hplace⟩ := mem_positionsFrom.mp hposition
    obtain ⟨hlt, -⟩ := List.getElem?_eq_some_iff.mp hitem
    rw [List.length_map]
    omega
  · intro position hposition found hfound
    obtain ⟨place, item, hitem, hcondition, hplace⟩ := mem_positionsFrom.mp hposition
    rw [Nat.zero_add] at hplace
    subst hplace
    rw [List.getElem?_map, hitem, Option.map_some, if_pos hcondition] at hfound
    rw [← Option.some.inj hfound, hitem, Option.some.injEq]
    exact overwrite_cases item value
  · intro position hposition
    rw [List.getElem?_map]
    cases hitem : items[position]? with
    | none => rfl
    | some item =>
        have hcondition : ¬condition item = true := by
          intro h
          exact hposition (mem_positionsFrom.mpr ⟨position, item, hitem, h, (Nat.zero_add _).symm⟩)
        rw [Option.map_some, if_neg hcondition]
  · rw [countP_positionsFrom]
    intro position item hitem
    rw [Nat.zero_add, hitem, Option.any_some]

/-- A list is refilled as a whole, unless all elements equal the value. -/
theorem written_refill (value : Value) (items : List Value) :
    Value.Written value
      ((positionsFrom (fun _ => true) 0 items).map fun position => [.index position])
      (.list items)
      (.list (if items.countP (fun item => !item.equal value) = 0 then items
        else List.replicate items.length value))
      (items.countP fun item => !item.equal value) := by
  refine .of_items (nodup_positionsFrom _ 0 items) ?_ ?_ ?_ ?_
  · intro position hposition
    obtain ⟨place, item, hitem, -, hplace⟩ := mem_positionsFrom.mp hposition
    obtain ⟨hlt, -⟩ := List.getElem?_eq_some_iff.mp hitem
    split
    · omega
    · rw [List.length_replicate]
      omega
  · intro position hposition found hfound
    split at hfound
    · next hnone =>
      have hequal := List.countP_eq_zero.mp hnone found (List.mem_of_getElem? hfound)
      exact .inr ⟨hfound, by simpa using hequal⟩
    · exact .inl (List.eq_of_mem_replicate (List.mem_of_getElem? hfound))
  · intro position hposition
    have hout : items.length ≤ position := by
      refine Nat.le_of_not_lt fun hlt => hposition ?_
      exact mem_positionsFrom.mpr
        ⟨position, items[position], List.getElem?_eq_getElem hlt, rfl, (Nat.zero_add _).symm⟩
    split
    · rfl
    · rw [List.getElem?_eq_none hout, List.getElem?_eq_none (by rwa [List.length_replicate])]
  · rw [@countP_positionsFrom _ fun item => !item.equal value]
    · simp only [Bool.true_and]
    · intro position item hitem
      rw [Nat.zero_add, hitem, Option.any_some]

theorem written_set {items : List Value} {position : Nat} {old : Value}
    (hold : items[position]? = some old) :
    Value.Written value [[.index position]] (.list items)
      (.list (items.set position (overwrite old value).1)) (overwrite old value).2 := by
  obtain ⟨hlt, -⟩ := List.getElem?_eq_some_iff.mp hold
  refine @Value.Written.of_items value _ items _ [position] (List.pairwise_singleton _ _)
    ?_ ?_ ?_ ?_
  · rw [List.forall_mem_singleton, List.length_set]
    exact hlt
  · rw [List.forall_mem_singleton]
    intro found hfound
    rw [List.getElem?_set_self hlt] at hfound
    rw [← Option.some.inj hfound, hold, Option.some.injEq]
    exact overwrite_cases old value
  · intro other hother
    exact List.getElem?_set_ne fun heq => hother (List.mem_singleton.mpr heq.symm)
  · rw [List.countP_singleton, hold, Option.any_some, overwrite_snd]

/-! ## Writing to values -/

theorem write_elements (hs : s.Constant value) (items : List Value) :
    Selector.elements.Wrote value (.list items)
        ((Selector.elements.write (.list items)).run s).1.1
        ((Selector.elements.write (.list items)).run s).1.2
      ∧ ((Selector.elements.write (.list items)).run s).2.Constant value := by
  cases items with
  | nil =>
      rw [write, hs.run_next_bind]
      refine ⟨⟨?_, rfl, nofun⟩, hs.rest⟩
      refine @Value.Written.of_children value _ _ 1 [.index 0]
        (List.pairwise_singleton _ _) nofun ?_ ?_ rfl
      · exact List.forall_mem_singleton.mpr ⟨value, rfl, .inl rfl⟩
      · intro step hstep
        cases step with
        | key name => rfl
        | index position =>
            cases position with
            | zero => exact absurd (List.mem_singleton_self _) hstep
            | succ position => rfl
  | cons item rest =>
      obtain ⟨hrun, hlast⟩ := refill_run hs (List.cons_ne_nil item rest)
      refine ⟨?_, hlast⟩
      show Selector.elements.Wrote value _ (.list ((refill (item :: rest)).run s).1.1)
        ((refill (item :: rest)).run s).1.2
      rw [hrun]
      refine ⟨written_refill value (item :: rest), ?_, fun hnone => ?_⟩
      · dsimp only
        split
        · rfl
        · rw [Value.layout, List.length_replicate]
          rfl
      · dsimp only at hnone ⊢
        rw [if_pos hnone]

theorem write_element (hs : s.Constant value) (index : Int64) (items : List Value) :
    (Selector.element index).Wrote value (.list items)
        (((Selector.element index).write (.list items)).run s).1.1
        (((Selector.element index).write (.list items)).run s).1.2
      ∧ (((Selector.element index).write (.list items)).run s).2.Constant value := by
  have hslots : (Selector.element index).slots (.list items)
      = (resolveIndex index items.length).toList.map fun p => [.index p] := rfl
  rw [write]
  cases hposition : resolveIndex index items.length with
  | none =>
      refine ⟨Wrote.nothing value ?_ rfl, hs⟩
      rw [hslots, hposition]
      rfl
  | some position =>
      have hlt := resolveIndex_bound hposition
      have hold : items[position]? = some items[position] := List.getElem?_eq_getElem hlt
      have hget : items.getD position value = items[position] := by
        rw [List.getD_eq_getElem?_getD, hold, Option.getD_some]
      dsimp only
      rw [hs.run_next_bind, hget]
      refine ⟨⟨?_, congrArg Layout.length List.length_set, ?_⟩, hs.rest⟩
      · rw [hslots, hposition]
        exact written_set hold
      · intro hnone
        have hsame : (overwrite items[position] value).1 = items[position] :=
          overwrite_unchanged hnone
        show Value.list (items.set position (overwrite items[position] value).1) = _
        rw [hsame, List.set_getElem_self]

theorem write_elementsMatching (hs : s.Constant value) (pattern : Compound)
    (items : List Value) :
    (Selector.elementsMatching pattern).Wrote value (.list items)
        (((Selector.elementsMatching pattern).write (.list items)).run s).1.1
        (((Selector.elementsMatching pattern).write (.list items)).run s).1.2
      ∧ (((Selector.elementsMatching pattern).write (.list items)).run s).2.Constant value := by
  obtain ⟨hrun, hlast⟩ := overwriteEach_run hs pattern.accepts items
  refine ⟨?_, hlast⟩
  show (Selector.elementsMatching pattern).Wrote value _
    (.list ((overwriteEach pattern.accepts items).run s).1.1)
    ((overwriteEach pattern.accepts items).run s).1.2
  rw [hrun]
  refine ⟨written_overwriteEach value pattern.accepts items,
    congrArg Layout.length (List.length_map _), fun hnone => ?_⟩
  exact congrArg Value.list (overwriteEach_unchanged hnone)

/-- Writing one value by a selector writes it to the slots.  A value of the wrong
kind has none. -/
theorem write_spec (selector : Selector) (old : Value) (hs : s.Constant value) :
    selector.Wrote value old ((selector.write old).run s).1.1 ((selector.write old).run s).1.2
      ∧ ((selector.write old).run s).2.Constant value := by
  cases selector with
  | child name =>
      cases old with
      | compound entries => exact write_child hs name entries
      | list items => exact ⟨Wrote.nothing value rfl rfl, hs⟩
      | scalar leaf => exact ⟨Wrote.nothing value rfl rfl, hs⟩
  | childMatching name pattern =>
      cases old with
      | compound entries => exact write_childMatching hs name pattern entries
      | list items => exact ⟨Wrote.nothing value rfl rfl, hs⟩
      | scalar leaf => exact ⟨Wrote.nothing value rfl rfl, hs⟩
  | rootMatching pattern => exact ⟨Wrote.nothing value rfl rfl, hs⟩
  | elements =>
      cases old with
      | compound entries => exact ⟨Wrote.nothing value rfl rfl, hs⟩
      | list items => exact write_elements hs items
      | scalar leaf => exact ⟨Wrote.nothing value rfl rfl, hs⟩
  | element index =>
      cases old with
      | compound entries => exact ⟨Wrote.nothing value rfl rfl, hs⟩
      | list items => exact write_element hs index items
      | scalar leaf => exact ⟨Wrote.nothing value rfl rfl, hs⟩
  | elementsMatching pattern =>
      cases old with
      | compound entries => exact ⟨Wrote.nothing value rfl rfl, hs⟩
      | list items => exact write_elementsMatching hs pattern items
      | scalar leaf => exact ⟨Wrote.nothing value rfl rfl, hs⟩

end Selector

end TreeQuery
