import TreeQuery.Proofs.Selector.Write

/-!
# Dealing values to slots

A write takes values from its supply one at a time, each for one slot, and the slots come
in order (`Supply.Dealt`).  So the values are dealt out: a slot holds the very value that
was taken for it, or it keeps an old value that equals one of those taken.  No value is put
in two slots, and where there are no slots none is taken.

A list under `[]` is the one place where values are taken for some slots only.  All
elements are compared with the first value, and if they equal it no other is taken.
Otherwise the list is refilled, and every other slot has its own value too.

Every write of a selector deals values to its slots (`Selector.write_filled`), whatever the
supply gives.  Nothing changes but the slots, and a value all of whose slots are unchanged
is unchanged itself.  So what is done to a value within a tree is done to the tree
(`Value.Filled.below_then`).
-/

namespace TreeQuery

/-! ## Values dealt in turn -/

namespace Supply

/-- Values have been taken from a supply for some slots in turn, which are the calls.  Every
slot has got the value that was taken for it, or it has kept a value that equals one of
those taken. -/
structure Dealt {ι : Type} (s s' : Supply) (slots calls : List ι)
    (before after : ι → Option Value) : Prop where
  /-- Values are taken for slots only, in their order and once for each. -/
  order : calls.Sublist slots
  /-- No other values are taken. -/
  taken : s' = ⟨s.value, s.used + calls.length⟩
  /-- What the slots hold. -/
  holds : ∀ slot ∈ slots,
    (∃ turn, calls[turn]? = some slot ∧ after slot = some (s.value (s.used + turn)))
      ∨ ∃ old turn, before slot = some old ∧ after slot = some old ∧ turn < calls.length
          ∧ old.equal (s.value (s.used + turn)) = true

namespace Dealt

section

variable {ι κ : Type} {s s' s'' : Supply} {slots calls slots' calls' : List ι}
  {before after : ι → Option Value}

theorem nothing (s : Supply) (before after : ι → Option Value) :
    Dealt s s [] [] before after :=
  ⟨.refl [], rfl, nofun⟩

/-- A value is taken for the only slot. -/
theorem single {slot : ι} (h : after slot = some (s.value s.used)
      ∨ ∃ old, before slot = some old ∧ after slot = some old
          ∧ old.equal (s.value s.used) = true) :
    Dealt s s.rest [slot] [slot] before after := by
  refine ⟨.refl _, rfl, List.forall_mem_singleton.mpr ?_⟩
  obtain hnew | ⟨old, hold, hkept, hequal⟩ := h
  · exact .inl ⟨0, rfl, hnew⟩
  · exact .inr ⟨old, 0, hold, hkept, Nat.one_pos, hequal⟩

/-- The slots can be named in another way. -/
theorem map (f : ι → κ) {before' after' : κ → Option Value}
    (h : Dealt s s' slots calls before after)
    (hbefore : ∀ slot ∈ slots, before' (f slot) = before slot)
    (hafter : ∀ slot ∈ slots, after' (f slot) = after slot) :
    Dealt s s' (slots.map f) (calls.map f) before' after' := by
  refine ⟨h.order.map f, by rw [List.length_map]; exact h.taken, ?_⟩
  rw [List.forall_mem_map]
  intro slot hslot
  rw [hbefore slot hslot, hafter slot hslot, List.length_map]
  refine (h.holds slot hslot).imp_left ?_
  rintro ⟨turn, hturn, hnew⟩
  exact ⟨turn, by rw [List.getElem?_map, hturn, Option.map_some], hnew⟩

/-- Only what the slots hold matters. -/
theorem congr {before' after' : ι → Option Value} (h : Dealt s s' slots calls before after)
    (hbefore : ∀ slot ∈ slots, before' slot = before slot)
    (hafter : ∀ slot ∈ slots, after' slot = after slot) :
    Dealt s s' slots calls before' after' := by
  have hmap := h.map id hbefore hafter
  rwa [List.map_id, List.map_id] at hmap

/-- First some slots have their turns, then the others. -/
theorem append (h : Dealt s s' slots calls before after)
    (h' : Dealt s' s'' slots' calls' before after) :
    Dealt s s'' (slots ++ slots') (calls ++ calls') before after := by
  obtain ⟨horder, rfl, hholds⟩ := h
  obtain ⟨horder', rfl, hholds'⟩ := h'
  refine ⟨horder.append horder', ?_, fun slot hslot => ?_⟩
  · rw [List.length_append, Nat.add_assoc]
  · rw [List.length_append]
    obtain hslot | hslot := List.mem_append.mp hslot
    · obtain ⟨turn, hturn, hnew⟩ | ⟨old, turn, hold, hkept, hlt, hequal⟩ := hholds slot hslot
      · obtain ⟨hlt, -⟩ := List.getElem?_eq_some_iff.mp hturn
        exact .inl ⟨turn, by rw [List.getElem?_append_left hlt, hturn], hnew⟩
      · exact .inr ⟨old, turn, hold, hkept, by omega, hequal⟩
    · -- The turns of the other slots are counted on.
      obtain ⟨turn, hturn, hnew⟩ | ⟨old, turn, hold, hkept, hlt, hequal⟩ := hholds' slot hslot
      · refine .inl ⟨calls.length + turn, ?_, by rw [hnew, Nat.add_assoc]⟩
        rw [List.getElem?_append_right (Nat.le_add_right ..), Nat.add_sub_cancel_left, hturn]
      · exact .inr ⟨old, calls.length + turn, hold, hkept, by omega, by rwa [← Nat.add_assoc]⟩

end

end Dealt

end Supply

/-! ## Nothing but the slots -/

namespace Value

/-- Nothing changes but what the slots hold, and above slots that are unchanged nothing
changes. -/
def Framed (slots : List Address) (before after : Value) : Prop :=
  ∀ a, (∀ slot ∈ slots, Address.Disjoint slot a ∨ after.get? slot = before.get? slot) →
    after.get? a = before.get? a

/-- Children that are no slots stay the same, and so does a value all of whose slots do. -/
theorem framed_of_children {steps : List Step} {before after : Value}
    (hframe : ∀ step, step ∉ steps → after.child? step = before.child? step)
    (hsame : (∀ step ∈ steps, after.child? step = before.child? step) → after = before) :
    Framed (steps.map fun step => [step]) before after := by
  have hsingle : ∀ (tree : Value) (step : Step), tree.get? [step] = tree.child? step := by
    intro tree step
    simp [get?]
  intro a ha
  rw [List.forall_mem_map] at ha
  cases a with
  | nil =>
      rw [hsame fun step hstep => ?_]
      obtain hapart | hkept := ha step hstep
      · exact absurd List.nil_prefix hapart.2
      · rwa [hsingle, hsingle] at hkept
  | cons step rest =>
      have hchild : after.child? step = before.child? step := by
        by_cases hstep : step ∈ steps
        · obtain hapart | hkept := ha step hstep
          · exact absurd (List.prefix_append [step] rest) hapart.1
          · rwa [hsingle, hsingle] at hkept
        · exact hframe step hstep
      simp only [get?, hchild]

/-- Values have been dealt to slots of a tree, and nothing else has changed. -/
structure Filled (slots calls : List Address) (s s' : Supply) (before after : Value) : Prop where
  /-- The values that were taken have been dealt to the slots. -/
  dealt : s.Dealt s' slots calls before.get? after.get?
  /-- Nothing else has changed. -/
  framed : Framed slots before after

namespace Filled

variable {s s' s'' : Supply}

theorem nothing (s : Supply) (value : Value) : Filled [] [] s s value value :=
  ⟨.nothing s _ _, fun _ _ => rfl⟩

/-- The value of a key is replaced by the value taken, or it equals that one. -/
theorem key {entries : Compound} {name : String} {new : Value}
    (h : new = s.value s.used
      ∨ Compound.get? entries name = some new ∧ new.equal (s.value s.used) = true) :
    Filled [[.key name]] [[.key name]] s s.rest (.compound entries)
      (.compound (Compound.insert entries name new)) := by
  have hnew : Compound.get? (Compound.insert entries name new) name = some new := by
    rw [Compound.get?_insert, if_pos rfl]
  constructor
  · refine .single ?_
    rw [get?_key, get?_key, hnew]
    obtain rfl | ⟨hold, hequal⟩ := h
    · exact .inl rfl
    · exact .inr ⟨new, hold, rfl, hequal⟩
  · refine @framed_of_children [.key name] _ _ (fun step hstep => ?_) fun hsame => ?_
    · cases step with
      | key other =>
          have hne : name ≠ other := by
            rintro rfl
            exact hstep (List.mem_singleton_self _)
          rw [child?, child?, Compound.get?_insert, if_neg hne]
      | index position => rfl
    · have hold := hsame _ (List.mem_singleton_self _)
      rw [child?, child?, hnew] at hold
      rw [Compound.insert_of_get?_eq_some hold.symm]

/-- Values are dealt to elements of a list. -/
theorem items {items items' : List Value} {positions turns : List Nat}
    (hdealt : s.Dealt s' positions turns (fun p => items[p]?) fun p => items'[p]?)
    (hframe : ∀ position, position ∉ positions → items'[position]? = items[position]?) :
    Filled (positions.map fun position => [.index position])
      (turns.map fun position => [.index position]) s s' (.list items) (.list items') := by
  constructor
  · refine hdealt.map _ ?_ ?_
    · exact fun position _ => get?_index items position
    · exact fun position _ => get?_index items' position
  · have hsteps : (positions.map fun position => [Step.index position])
        = (positions.map Step.index).map fun step => [step] := by
      rw [List.map_map]
      rfl
    rw [hsteps]
    refine framed_of_children (fun step hstep => ?_) fun hsame => ?_
    · cases step with
      | key name => rfl
      | index position => exact hframe position fun hmem => hstep (List.mem_map_of_mem hmem)
    · refine congrArg Value.list (List.ext_getElem? fun position => ?_)
      by_cases hmem : position ∈ positions
      · exact hsame _ (List.mem_map_of_mem hmem)
      · exact hframe position hmem

/-- First the slots of a value within the tree are filled, then others that part from it. -/
theorem below_then {root old new result : Value} {address : Address}
    {slots calls slots' calls' : List Address} (hold : root.get? address = some old)
    (haway : ∀ slot ∈ slots', Address.Disjoint address slot) (h : Filled slots calls s s' old new)
    (h' : Filled slots' calls' s' s'' (root.put address new) result) :
    Filled (slots.map (address ++ ·) ++ slots') (calls.map (address ++ ·) ++ calls') s s'' root
      result := by
  have hother : ∀ slot ∈ slots', (root.put address new).get? slot = root.get? slot :=
    fun slot hslot => get?_put_disjoint root new (haway slot hslot)
  have hbefore : ∀ below, root.get? (address ++ below) = old.get? below := by
    intro below
    rw [get?_append, hold, Option.bind_some]
  have hafter : ∀ below, result.get? (address ++ below) = new.get? below := by
    intro below
    have hbelow : ∀ slot ∈ slots', Address.Disjoint slot (address ++ below)
        ∨ result.get? slot = (root.put address new).get? slot := by
      intro slot hslot
      exact .inl ((haway slot hslot).symm.append_right below)
    rw [h'.framed _ hbelow, get?_put_below new below hold]
  constructor
  · have hdealt := h.dealt.map (address ++ ·) (fun slot _ => hbefore slot) fun slot _ =>
      hafter slot
    exact hdealt.append (h'.dealt.congr (fun slot hslot => (hother slot hslot).symm) fun _ _ => rfl)
  · intro a ha
    rw [List.forall_mem_append, List.forall_mem_map] at ha
    obtain ⟨hslots, hslots'⟩ := ha
    have hresult : result.get? a = (root.put address new).get? a := by
      refine h'.framed a fun slot hslot => ?_
      rw [hother slot hslot]
      exact hslots' slot hslot
    rw [hresult]
    rcases Address.disjoint_or_prefix address a with hapart | ⟨below, rfl⟩ | hle
    · exact get?_put_disjoint root new hapart
    · rw [get?_put_below new below hold, hbefore]
      refine h.framed below fun slot hslot => ?_
      rw [← hbefore, ← hafter]
      exact (hslots slot hslot).imp_left Address.disjoint_append_left_iff.mp
    · -- The location is above all slots, so none of them has changed.
      have hsame : new.get? [] = old.get? [] := by
        refine h.framed [] fun slot hslot => ?_
        rw [← hbefore, ← hafter]
        refine .inr ((hslots slot hslot).resolve_left fun hapart => ?_)
        exact hapart.2 (hle.trans (List.prefix_append address slot))
      rw [get?_nil, get?_nil] at hsame
      rw [Option.some.inj hsame, put_get? hold]

end Filled

end Value

namespace Selector

/-- Whatever the supply gives, a write by the selector deals it to the slots. -/
def Fills (selector : Selector) (old : Value) : Prop :=
  ∀ s : Supply, ∃ calls, Value.Filled (selector.slots old) calls s
    ((selector.write old).run s).2 old ((selector.write old).run s).1.1

/-- Nothing is written where there are no slots. -/
theorem fills_nothing {selector : Selector} {old : Value} (hslots : selector.slots old = [])
    (hwrite : selector.write old = pure (old, 0)) : selector.Fills old := by
  intro s
  rw [hslots, hwrite]
  exact ⟨[], .nothing s old⟩

/-! ## Keys -/

theorem child_fills (name : String) (entries : Compound) :
    (Selector.child name).Fills (.compound entries) := by
  intro s
  rw [write, Supply.run_next_bind]
  refine ⟨[[.key name]], ?_⟩
  split
  · next hequal =>
    obtain ⟨old, hold, hequal⟩ := (Option.any_eq_true _ _).mp hequal
    have hkept := @Value.Filled.key s entries name old (.inr ⟨hold, hequal⟩)
    rwa [Compound.insert_of_get?_eq_some hold] at hkept
  · exact .key (.inl rfl)

theorem childMatching_fills (name : String) (pattern entries : Compound) :
    (Selector.childMatching name pattern).Fills (.compound entries) := by
  have hslots : (Selector.childMatching name pattern).slots (.compound entries)
      = if (Compound.get? entries name).any pattern.accepts then [[.key name]] else [] := rfl
  cases hold : Compound.get? entries name with
  | none =>
      rw [hold] at hslots
      exact fills_nothing hslots (by rw [write, hold])
  | some old =>
      rw [hold, Option.any_some] at hslots
      by_cases haccepts : pattern.accepts old = true
      · intro s
        rw [hslots, if_pos haccepts, write, hold]
        dsimp only
        rw [if_pos haccepts]
        refine ⟨[[.key name]], .key ?_⟩
        obtain hnew | ⟨hkept, hequal⟩ := overwrite_cases old (s.value s.used)
        · exact .inl hnew
        · exact .inr ⟨hkept ▸ hold, hequal⟩
      · rw [if_neg haccepts] at hslots
        refine fills_nothing hslots ?_
        rw [write, hold]
        exact if_neg haccepts

/-! ## Elements -/

/-- An element is compared with the value that is taken after those for the matching
elements before it. -/
theorem run_overwriteEach (condition : Value → Bool) (items : List Value) (s : Supply) :
    ((overwriteEach condition items).run s).2 = ⟨s.value, s.used + items.countP condition⟩
      ∧ ∀ position : Nat, ((overwriteEach condition items).run s).1.1[position]?
          = items[position]?.map fun item =>
              if condition item then
                (overwrite item (s.value (s.used + (items.take position).countP condition))).1
              else item := by
  induction items generalizing s with
  | nil => exact ⟨rfl, fun _ => rfl⟩
  | cons item rest ih =>
      rw [overwriteEach, List.countP_cons]
      by_cases hcondition : condition item = true
      · obtain ⟨hlast, hrest⟩ := ih s.rest
        rw [if_pos hcondition, if_pos hcondition, Supply.run_next_bind]
        have hcount : ∀ count, s.rest.used + count = s.used + (count + 1) := by
          intro count
          show s.used + 1 + count = _
          omega
        refine ⟨hlast.trans (by rw [hcount]; rfl), fun position => ?_⟩
        cases position with
        | zero => exact congrArg some (if_pos hcondition).symm
        | succ position =>
            rw [List.take_succ_cons, List.countP_cons, if_pos hcondition, ← hcount]
            exact hrest position
      · obtain ⟨hlast, hrest⟩ := ih s
        rw [if_neg hcondition, if_neg hcondition]
        refine ⟨hlast, fun position => ?_⟩
        cases position with
        | zero => exact congrArg some (if_neg hcondition).symm
        | succ position =>
            rw [List.take_succ_cons, List.countP_cons, if_neg hcondition]
            exact hrest position

theorem elementsMatching_fills (pattern : Compound) (items : List Value) :
    (Selector.elementsMatching pattern).Fills (.list items) := by
  intro s
  obtain ⟨hlast, hitems⟩ := run_overwriteEach pattern.accepts items s
  refine ⟨_, @Value.Filled.items s ((overwriteEach pattern.accepts items).run s).2 items
    ((overwriteEach pattern.accepts items).run s).1.1 (positionsFrom pattern.accepts 0 items)
    (positionsFrom pattern.accepts 0 items) ⟨.refl _, ?_, ?_⟩ ?_⟩
  · rw [hlast, length_positionsFrom]
  · intro position hposition
    obtain ⟨place, item, hitem, haccepts, hplace⟩ := mem_positionsFrom.mp hposition
    rw [Nat.zero_add] at hplace
    subst hplace
    have hturn := @getElem?_positionsFrom _ _ 0 _ _ hitem haccepts
    rw [Nat.zero_add] at hturn
    rw [hitems, hitem, Option.map_some, if_pos haccepts]
    obtain hnew | ⟨hkept, hequal⟩ := overwrite_cases item
      (s.value (s.used + (items.take position).countP pattern.accepts))
    · exact .inl ⟨_, hturn, congrArg some hnew⟩
    · obtain ⟨hlt, -⟩ := List.getElem?_eq_some_iff.mp hturn
      exact .inr ⟨item, _, rfl, congrArg some hkept.symm, hlt, hkept ▸ hequal⟩
  · intro position hposition
    rw [hitems]
    cases hitem : items[position]? with
    | none => rfl
    | some item =>
        have hrejects : ¬pattern.accepts item = true := by
          intro h
          exact hposition (mem_positionsFrom.mpr ⟨position, item, hitem, h, (Nat.zero_add _).symm⟩)
        rw [Option.map_some, if_neg hrejects]

/-- A refilled list has one value taken for each element.  If it is not refilled, the only
value taken equals all elements. -/
theorem run_refill {items : List Value} (hne : items ≠ []) (s : Supply) :
    ((refill items).run s).1.1 = items ∧ ((refill items).run s).2 = s.rest
        ∧ (∀ item ∈ items, item.equal (s.value s.used) = true)
      ∨ ((refill items).run s).1.1 = (List.range' s.used items.length).map s.value
        ∧ ((refill items).run s).2 = ⟨s.value, s.used + items.length⟩ := by
  rw [refill, Supply.run_next_bind]
  dsimp only
  split
  · next hnone =>
    rw [List.countP_eq_zero] at hnone
    exact .inl ⟨rfl, rfl, fun item hitem => by simpa using hnone item hitem⟩
  · right
    obtain ⟨count, hcount⟩ := Nat.exists_eq_succ_of_ne_zero (mt List.length_eq_zero_iff.mp hne)
    have htake := Supply.run_take s.rest count
    rw [hcount, Nat.succ_sub_one]
    show (s.value s.used :: ((Supply.take count).run s.rest).1) = _
      ∧ ((Supply.take count).run s.rest).2 = _
    rw [htake, List.range'_succ, List.map_cons]
    refine ⟨rfl, ?_⟩
    rw [Supply.rest]
    dsimp only
    rw [Nat.add_assoc, Nat.add_comm 1]

/-- Refilling a list takes a value for all elements, or for the first one only. -/
theorem refill_filled {items : List Value} (hne : items ≠ []) (s : Supply) :
    ∃ calls, Value.Filled ((List.range' 0 items.length).map fun position => [.index position]) calls
      s ((refill items).run s).2 (.list items) (.list ((refill items).run s).1.1) := by
  have hmem : ∀ position, position ∈ List.range' 0 items.length ↔ position < items.length := by
    intro position
    rw [← List.range_eq_range', List.mem_range]
  obtain ⟨hsame, hlast, hequal⟩ | ⟨hrefilled, hlast⟩ := run_refill hne s
  · rw [hsame, hlast]
    have hfirst : [0].Sublist (List.range' 0 items.length) :=
      List.singleton_sublist.mpr ((hmem 0).mpr (List.length_pos_iff.mpr hne))
    refine ⟨_, .items ⟨hfirst, rfl, fun position hposition => ?_⟩ fun _ _ => rfl⟩
    have hitem := List.getElem?_eq_getElem ((hmem position).mp hposition)
    exact .inr ⟨_, 0, hitem, hitem, Nat.one_pos, hequal _ (List.getElem_mem _)⟩
  · rw [hrefilled, hlast]
    refine ⟨_, .items ⟨.refl _, ?_, fun position hposition => ?_⟩ fun position hposition => ?_⟩
    · rw [List.length_range']
    · have hlt := (hmem position).mp hposition
      refine .inl ⟨position, ?_, ?_⟩
      · rw [List.getElem?_range' hlt]
        simp
      · rw [List.getElem?_map, List.getElem?_range' hlt]
        simp
    · rw [hmem, Nat.not_lt] at hposition
      rw [List.getElem?_eq_none hposition, List.getElem?_eq_none (by simpa using hposition)]

theorem elements_fills (items : List Value) : Selector.elements.Fills (.list items) := by
  intro s
  cases items with
  | nil =>
      refine ⟨_, @Value.Filled.items s s.rest [] [s.value s.used] [0] [0] (.single (.inl rfl))
        fun position hposition => ?_⟩
      cases position with
      | zero => exact absurd (List.mem_singleton_self _) hposition
      | succ position => rfl
  | cons item rest =>
      obtain ⟨calls, hfilled⟩ := refill_filled (List.cons_ne_nil item rest) s
      rw [← positionsFrom_true 0 (item :: rest)] at hfilled
      exact ⟨calls, hfilled⟩

theorem element_fills (index : Int64) (items : List Value) :
    (Selector.element index).Fills (.list items) := by
  have hslots : (Selector.element index).slots (.list items)
      = (resolveIndex index items.length).toList.map fun position => [.index position] := rfl
  cases hposition : resolveIndex index items.length with
  | none =>
      rw [hposition] at hslots
      exact fills_nothing hslots (by rw [write, hposition])
  | some position =>
      intro s
      have hlt := resolveIndex_bound hposition
      have hold : items[position]? = some items[position] := List.getElem?_eq_getElem hlt
      have hget : ∀ value, items.getD position value = items[position] := by
        intro value
        rw [List.getD_eq_getElem?_getD, hold, Option.getD_some]
      rw [hslots, hposition, Option.toList_some, write, hposition]
      dsimp only
      rw [Supply.run_next_bind, hget]
      refine ⟨_, .items (.single ?_) fun other hother => ?_⟩
      · rw [List.getElem?_set_self hlt, hold]
        obtain hnew | ⟨hkept, hequal⟩ := overwrite_cases items[position] (s.value s.used)
        · exact .inl (congrArg some hnew)
        · exact .inr ⟨_, congrArg some hkept, rfl, hequal⟩
      · exact List.getElem?_set_ne fun heq => hother (List.mem_singleton.mpr heq.symm)

/-! ## All selectors -/

/-- A write by a selector deals the values it takes to the slots.  A value of the wrong kind
has none, and then no value is taken. -/
theorem write_filled (selector : Selector) (old : Value) : selector.Fills old := by
  cases selector with
  | child name =>
      cases old with
      | compound entries => exact child_fills name entries
      | list items => exact fills_nothing rfl rfl
      | scalar leaf => exact fills_nothing rfl rfl
  | childMatching name pattern =>
      cases old with
      | compound entries => exact childMatching_fills name pattern entries
      | list items => exact fills_nothing rfl rfl
      | scalar leaf => exact fills_nothing rfl rfl
  | rootMatching pattern => exact fills_nothing rfl rfl
  | elements =>
      cases old with
      | compound entries => exact fills_nothing rfl rfl
      | list items => exact elements_fills items
      | scalar leaf => exact fills_nothing rfl rfl
  | element index =>
      cases old with
      | compound entries => exact fills_nothing rfl rfl
      | list items => exact element_fills index items
      | scalar leaf => exact fills_nothing rfl rfl
  | elementsMatching pattern =>
      cases old with
      | compound entries => exact fills_nothing rfl rfl
      | list items => exact elementsMatching_fills pattern items
      | scalar leaf => exact fills_nothing rfl rfl

end Selector

end TreeQuery
