import TreeQuery.Proofs.Path.Ensure
import TreeQuery.Proofs.Selector.Write

/-!
# Laws of writing to a path

Writing one value to a path ensures the parents, and then writes to the slots of the
last selector in each of them.  The parents part from each other, so the slots do,
and what is known of every parent holds of the whole tree
(`Value.EditedEach.written`).  That is all that changes: outside the slots every
value is the same, and only the layouts of the parents can differ, in the way that
the last selector changes them (`writeValue_slots`).
-/

namespace TreeQuery

/-! ## Writing to many parents -/

namespace Value

variable {last : Selector} {value before after : Value} {parents : List Address}
  {answers : List (Address × Nat)}

theorem EditedEach.wrote_at (h : EditedEach (last.Wrote value) parents before after answers)
    {parent : Address} (hparent : parent ∈ parents) : ∃ old new count,
      (parent, count) ∈ answers ∧ before.get? parent = some old ∧ after.get? parent = some new
        ∧ last.Wrote value old new count := by
  rw [← h.places] at hparent
  obtain ⟨⟨parent, count⟩, hanswer, rfl⟩ := List.mem_map.mp hparent
  obtain ⟨old, new, hold, hnew, hwrote⟩ := h.each _ hanswer
  exact ⟨old, new, count, hanswer, hold, hnew, hwrote⟩

/-- Apart from the slots nothing changes. -/
theorem EditedEach.frame_of_slots
    (h : EditedEach (last.Wrote value) parents before after answers) {a : Address}
    (ha : ∀ slot ∈ parents.flatMap (before.searchAt last.slots), Address.Disjoint slot a) :
    after.get? a = before.get? a := by
  have hslots : ∀ parent ∈ parents, ∀ old, before.get? parent = some old →
      ∀ slot ∈ last.slots old, Address.Disjoint (parent ++ slot) a := by
    intro parent hparent old hold slot hslot
    have hbelow := mem_searchAt.mpr ⟨old, hold, slot, hslot, rfl⟩
    exact ha _ (List.mem_flatMap.mpr ⟨parent, hparent, hbelow⟩)
  by_cases habove : ∃ parent ∈ parents, parent <+: a
  · -- The location is in a parent, apart from its slots.
    obtain ⟨parent, hparent, below, rfl⟩ := habove
    obtain ⟨old, new, count, -, hold, hnew, hwrote⟩ := h.wrote_at hparent
    rw [get?_append, get?_append, hold, hnew, Option.bind_some, Option.bind_some]
    refine hwrote.written.frame below fun slot hslot => ?_
    exact Address.disjoint_append_left_iff.mp (hslots parent hparent old hold slot hslot)
  · -- The location is apart from a parent, or above one that has no slots.
    refine h.frame a fun parent hparent => ?_
    obtain ⟨old, new, count, -, hold, hnew, hwrote⟩ := h.wrote_at hparent
    rcases Address.disjoint_or_prefix parent a with hapart | hle | hle
    · exact .inl hapart
    · exact absurd ⟨parent, hparent, hle⟩ habove
    · have hsame := hwrote.written.frame [] fun slot hslot => by
        have hdisjoint := hslots parent hparent old hold slot hslot
        exact absurd (hle.trans (List.prefix_append parent slot)) hdisjoint.2
      rw [get?_nil, get?_nil] at hsame
      rw [hold, hnew, hsame]
      exact .inr rfl

theorem EditedEach.count_slots
    (h : EditedEach (last.Wrote value) parents before after answers) :
    (answers.map Prod.snd).sum = (parents.flatMap (before.searchAt last.slots)).countP
      fun slot => !(before.get? slot).any (·.equal value) := by
  rw [List.countP_flatMap, ← h.places, List.map_map]
  congr 1
  refine List.map_congr_left fun answer hanswer => ?_
  obtain ⟨old, new, hold, -, hwrote⟩ := h.each answer hanswer
  rw [hwrote.written.counted, Function.comp_apply, Function.comp_apply,
    searchAt_of_get? _ hold, List.countP_map]
  refine List.countP_congr fun slot _ => ?_
  rw [Function.comp_apply, get?_append, hold, Option.bind_some]

/-- What writing does to every parent, it does to the tree. -/
theorem EditedEach.written (h : EditedEach (last.Wrote value) parents before after answers)
    (hapart : parents.Pairwise Address.Disjoint) :
    Written value (parents.flatMap (before.searchAt last.slots)) before after
      (answers.map Prod.snd).sum := by
  refine ⟨?_, ?_, fun a ha => h.frame_of_slots ha, h.count_slots⟩
  · exact pairwise_searchAt Address.carries_disjoint hapart last.pairwise_disjoint_slots
  · intro slot hslot
    obtain ⟨parent, hparent, hslot⟩ := List.mem_flatMap.mp hslot
    obtain ⟨old, hold, below, hbelow, rfl⟩ := mem_searchAt.mp hslot
    obtain ⟨old', new, count, -, hold', hnew, hwrote⟩ := h.wrote_at hparent
    obtain rfl := Option.some.inj (hold.symm.trans hold')
    rw [get?_append, get?_append, hold, hnew, Option.bind_some, Option.bind_some]
    exact hwrote.written.holds below hbelow

/-- Only the parents change their layout, as the last selector does it. -/
theorem EditedEach.layout_of_slots
    (h : EditedEach (last.Wrote value) parents before after answers) {a : Address} {old : Value}
    (hold : before.get? a = some old)
    (ha : ∀ slot ∈ parents.flatMap (before.searchAt last.slots), ¬slot <+: a) :
    ∃ new, after.get? a = some new
      ∧ new.layout = if a ∈ parents then last.layoutAfter old else old.layout := by
  by_cases hmem : a ∈ parents
  · obtain ⟨old', new, count, -, hold', hnew, hwrote⟩ := h.wrote_at hmem
    obtain rfl := Option.some.inj (hold.symm.trans hold')
    exact ⟨new, hnew, by rw [if_pos hmem, hwrote.layout]⟩
  · rw [if_neg hmem]
    by_cases habove : ∃ parent ∈ parents, parent <+: a
    · -- Below a parent and not below a slot the value itself is the same.
      obtain ⟨parent, hparent, below, rfl⟩ := habove
      obtain ⟨inner, new, count, -, hinner, hnew, hwrote⟩ := h.wrote_at hparent
      have hsame : new.get? below = inner.get? below := by
        refine hwrote.written.frame below fun slot hslot => ?_
        have hnot : ¬slot <+: below := by
          intro hle
          refine ha (parent ++ slot) ?_ ((List.prefix_append_right_inj parent).mpr hle)
          exact List.mem_flatMap.mpr
            ⟨parent, hparent, mem_searchAt.mpr ⟨inner, hinner, slot, hslot, rfl⟩⟩
        refine ⟨hnot, fun hle => ?_⟩
        -- A slot is one step long, so what is above it is the parent or the slot.
        cases below with
        | nil => exact hmem (by rwa [List.append_nil])
        | cons step rest =>
            have hlength : (step :: rest).length = slot.length := by
              have hle' := hle.length_le
              rw [Selector.length_of_mem_slots hslot, List.length_cons] at hle' ⊢
              omega
            rw [hle.eq_of_length hlength] at hnot
            exact hnot (List.prefix_refl slot)
      rw [get?_append, hinner, Option.bind_some] at hold
      refine ⟨old, ?_, rfl⟩
      rw [get?_append, hnew, Option.bind_some, hsame, hold]
    · have hlayout := h.layout a fun parent hparent hle => habove ⟨parent, hparent, hle⟩
      rw [hold, Option.map_some, Option.map_eq_some_iff] at hlayout
      exact hlayout

end Value

/-! ## Writing to a path -/

namespace Path

/-- The slots of a path in a tree, when the parents of what it picks are given. -/
def slots (path : Path) (tree : Value) (parents : List Address) : List Address :=
  match path.selectors.getLast? with
  | some last => parents.flatMap (tree.searchAt last.slots)
  | none => []

/-- The layout of a value after a write to a path.  It may change in the parents
only. -/
def layoutAfter (path : Path) (parents : List Address) (address : Address) (value : Value) :
    Layout :=
  match path.selectors.getLast? with
  | some last => if address ∈ parents then last.layoutAfter value else value.layout
  | none => value.layout

theorem total_eq_sum (changes : List (Address × Nat)) :
    total changes = (changes.map Prod.snd).sum := rfl

theorem writeValue_of_nil {path : Path} (h : path.selectors = []) (root value : Value) :
    path.writeValue root value = (root, .ok 0) := by
  rw [writeValue, write, h]
  generalize path.ensureParents root = outcome
  obtain ⟨grown, failure | found⟩ := outcome
  · rfl
  · rfl

theorem writeValue_of_concat {path : Path} {parents : List Selector} {last : Selector}
    (h : path.selectors = parents ++ [last]) (root value : Value) :
    path.writeValue root value = match path.ensureParents root with
      | (grown, .error failure) => (grown, .error failure)
      | (grown, .ok found) =>
          let outcome := (Value.editEach last.write found grown).run (Supply.always value)
          (outcome.1.1, .ok (outcome.1.2.map Prod.snd).sum) := by
  have hlast : path.selectors.getLast? = some last := by
    rw [h, List.getLast?_concat]
  rw [writeValue, write, hlast]
  generalize path.ensureParents root = outcome
  obtain ⟨grown, failure | found⟩ := outcome
  · rfl
  · dsimp only
    rw [← total_eq_sum]
    rfl

/-- The last selector writes to all parents, and to each as it does alone. -/
theorem editEach_write {last : Selector} {value grown : Value} {parents : List Address}
    (hsites : grown.Sites parents) {s : Supply} (hs : s.Constant value) :
    Value.EditedEach (last.Wrote value) parents grown
      ((Value.editEach last.write parents grown).run s).1.1
      ((Value.editEach last.write parents grown).run s).1.2 := by
  have hstep : ∀ a ∈ parents, ∃ old, grown.get? a = some old ∧ ∀ s : Supply, s.Constant value →
      last.Wrote value old ((last.write old).run s).1.1 ((last.write old).run s).1.2
        ∧ ((last.write old).run s).2.Constant value := by
    intro a ha
    obtain ⟨old, hold⟩ := hsites.there a ha
    exact ⟨old, hold, fun s hs => last.write_spec old hs⟩
  exact (Value.editEach_apart hsites.apart hstep s hs).1

/-- A write that succeeds has ensured the parents and written to each of them. -/
theorem wrote_of_writeValue {path : Path} {selectors : List Selector} {last : Selector}
    (hselectors : path.selectors = selectors ++ [last]) {root value result : Value} {count : Nat}
    (h : path.writeValue root value = (result, .ok count)) :
    ∃ grown parents answers, path.ensureParents root = (grown, .ok parents)
      ∧ Value.EditedEach (last.Wrote value) parents grown result answers
      ∧ count = (answers.map Prod.snd).sum := by
  rw [writeValue_of_concat hselectors] at h
  generalize hparents : path.ensureParents root = outcome at h
  obtain ⟨grown, failure | parents⟩ := outcome
  · cases (Prod.mk.inj h).2
  · have hedited := @editEach_write last value grown parents (ensureParents_sites hparents) _
      (Supply.constant_always value)
    obtain ⟨rfl, hcount⟩ := Prod.mk.inj h
    exact ⟨grown, parents, _, rfl, hedited, (Except.ok.inj hcount).symm⟩

/-- Writing a value to a path is a write to the slots in the tree that ensuring the
parents leaves.  Apart from the slots every value is as before.  Apart from the
parents so is every layout, unless it is that of a value written to a slot. -/
theorem writeValue_slots (path : Path) (root value result : Value) (count : Nat)
    (h : path.writeValue root value = (result, .ok count)) :
    ∃ grown parents, path.ensureParents root = (grown, .ok parents)
      ∧ Value.Written value (path.slots grown parents) grown result count
      ∧ ∀ address old, grown.get? address = some old →
          (∀ slot ∈ path.slots grown parents, ¬slot <+: address) →
            ∃ new, result.get? address = some new
              ∧ new.layout = path.layoutAfter parents address old := by
  rcases path.selectors_cases with hnil | ⟨selectors, last, hselectors⟩
  · rw [writeValue_of_nil hnil] at h
    obtain ⟨rfl, hcount⟩ := Prod.mk.inj h
    obtain rfl := Except.ok.inj hcount
    refine ⟨root, [[]], ensureParents_of_nil hnil root, ?_, fun address old hold _ => ?_⟩
    · rw [slots, hnil]
      exact .of_equal List.Pairwise.nil nofun
    · refine ⟨old, hold, ?_⟩
      rw [layoutAfter, hnil]
      rfl
  · have hlast : path.selectors.getLast? = some last := by
      rw [hselectors, List.getLast?_concat]
    rw [writeValue_of_concat hselectors] at h
    generalize hparents : path.ensureParents root = outcome at h
    obtain ⟨grown, failure | parents⟩ := outcome
    · cases (Prod.mk.inj h).2
    · have hsites := ensureParents_sites hparents
      have hedited := @editEach_write last value grown parents hsites _
        (Supply.constant_always value)
      obtain ⟨rfl, hcount⟩ := Prod.mk.inj h
      obtain rfl := Except.ok.inj hcount
      refine ⟨grown, parents, rfl, ?_, fun address old hold ha => ?_⟩
      · rw [slots, hlast]
        exact hedited.written hsites.apart
      · rw [slots, hlast] at ha
        rw [layoutAfter, hlast]
        exact hedited.layout_of_slots hold ha

/-- The first element holds the value already, the second one gets a new key, and the
third one is no compound. -/
theorem writeValue_slots_in_list :
    let path : Path := ⟨"a[].b", [⟨.child "a", 1⟩, ⟨.elements, 3⟩, ⟨.child "b", 5⟩]⟩
    let value : Value := .scalar (.int 1)
    let root : Value := .compound [("a", .list [.compound [("b", value)],
      .compound [("c", .list [])], .list []])]
    let result : Value := .compound [("a", .list [.compound [("b", value)],
      .compound [("c", .list []), ("b", value)], .list []])]
    path.writeValue root value = (result, .ok 1)
      ∧ ∃ grown parents, path.ensureParents root = (grown, .ok parents)
        ∧ Value.Written value (path.slots grown parents) grown result 1 := by
  intro path value root result
  have hwrite : path.writeValue root value = (result, .ok 1) := rfl
  obtain ⟨grown, parents, hparents, hwritten, -⟩ :=
    writeValue_slots path root value result 1 hwrite
  exact ⟨hwrite, grown, parents, hparents, hwritten⟩

end Path

end TreeQuery
