import TreeQuery.Proofs.Path.Write

/-!
# Writing to a path twice

A second write of the same value usually finds the value everywhere and changes
nothing.  But the first write may take away what a filter on the way to it asks
for.  Then the filter finds other locations the second time, or none, and makes a
new element or fails (`writeValue_twice_differs`).

That is the only way in which the second write can differ.  Where a write has been,
writing again changes nothing (`Selector.Wrote.write_again`).  And after a write, the
selectors before the last one pick no parents but those that were written to
(`mem_picks_of_agrees`).  So all depends on whether the second write finds its
parents without making any (`writeValue_again`).  It does when they are all still
picked (`settled_of_kept`), and without filters on the way they are
(`kept_of_plain`).
-/

namespace TreeQuery

/-! ## Writing to a value again -/

namespace Selector

theorem mem_locate_congr {selector : Selector} {first second : Value} {address : Address}
    (hlayout : first.layout = second.layout) (hget : first.get? address = second.get? address)
    (h : address ∈ selector.locate first) : address ∈ selector.locate second := by
  rw [mem_locate] at h ⊢
  rw [← hlayout, ← hget]
  exact h

/-- A write makes no new slots: where nothing was written, a slot afterwards is one
that was there before. -/
theorem mem_slots_of_wrote {selector : Selector} {value old new : Value} {count : Nat}
    (hwrote : selector.Wrote value old new count) {slot : Address}
    (hget : new.get? slot = old.get? slot) (h : slot ∈ selector.slots new) :
    slot ∈ selector.slots old := by
  have hlayout := hwrote.layout
  cases selector with
  | child name =>
      cases new with
      | compound entries' =>
          cases old with
          | compound entries => exact h
          | list items => cases hlayout
          | scalar leaf => cases hlayout
      | list items => cases h
      | scalar leaf => cases h
  | childMatching name pattern => exact mem_locate_congr hlayout hget h
  | rootMatching pattern => cases h
  | elements =>
      cases new with
      | compound entries => cases h
      | list items' =>
          cases old with
          | compound entries => cases hlayout
          | list items =>
              cases items with
              | nil =>
                  obtain ⟨item, rfl⟩ := List.length_eq_one_iff.mp (Layout.length.inj hlayout)
                  exact h
              | cons item rest =>
                  cases items' with
                  | nil => cases Layout.length.inj hlayout
                  | cons item' rest' => exact @mem_locate_congr .elements _ _ _ hlayout hget h
          | scalar leaf => cases hlayout
      | scalar leaf => cases h
  | element index => exact mem_locate_congr hlayout hget h
  | elementsMatching pattern => exact mem_locate_congr hlayout hget h

/-- After a write every slot holds a value that equals the written one. -/
theorem Wrote.slots_equal {selector : Selector} {value old new : Value} {count : Nat}
    (h : selector.Wrote value old new count) (hself : value.equal value = true) {slot : Address}
    (hslot : slot ∈ selector.slots new) :
    ∃ found, new.get? slot = some found ∧ found.equal value = true := by
  have hold : slot ∈ selector.slots old := by
    by_cases hmem : slot ∈ selector.slots old
    · exact hmem
    · refine mem_slots_of_wrote h (h.written.frame slot fun other hother => ?_) hslot
      have hlength : other.length = slot.length :=
        (length_of_mem_slots hother).trans (length_of_mem_slots hslot).symm
      refine Address.disjoint_of_length_eq hlength ?_
      rintro rfl
      exact hmem hother
  obtain ⟨found, hfound, rfl | ⟨-, hequal⟩⟩ := h.written.holds slot hold
  · exact ⟨found, hfound, hself⟩
  · exact ⟨found, hfound, hequal⟩

/-- Where a value has been written, writing it again changes nothing. -/
theorem Wrote.write_again {selector : Selector} {value old new : Value} {count : Nat}
    (h : selector.Wrote value old new count) (hself : value.equal value = true) {s : Supply}
    (hs : s.Constant value) :
    ((selector.write new).run s).1 = (new, 0) ∧ ((selector.write new).run s).2.Constant value := by
  obtain ⟨hwrote, hlast⟩ := selector.write_spec new hs
  have hcount : ((selector.write new).run s).1.2 = 0 := by
    rw [hwrote.written.counted, List.countP_eq_zero]
    intro slot hslot
    obtain ⟨found, hfound, hequal⟩ := h.slots_equal hself hslot
    rw [hfound, Option.any_some, hequal]
    decide
  exact ⟨Prod.ext (hwrote.unchanged hcount) hcount, hlast⟩

end Selector

/-! ## What is picked after a write -/

/-- Two trees agree except at some addresses and below them. -/
structure Value.Agrees (addresses : List Address) (before after : Value) : Prop where
  /-- There still is a value at each address. -/
  there : ∀ a ∈ addresses, ∃ new, after.get? a = some new
  /-- Apart from the addresses the values are the same. -/
  frame : ∀ a, (∀ b ∈ addresses, Address.Disjoint b a) → after.get? a = before.get? a
  /-- Above the addresses the layouts are the same. -/
  layout : ∀ a, (∀ b ∈ addresses, ¬b <+: a) →
    (after.get? a).map Value.layout = (before.get? a).map Value.layout

theorem Value.EditedEach.agrees {α : Type} {change : Value → Value → α → Prop}
    {addresses : List Address} {before after : Value} {answers : List (Address × α)}
    (h : EditedEach change addresses before after answers) :
    Value.Agrees addresses before after := by
  refine ⟨fun a ha => ?_, fun a ha => h.frame a fun b hb => .inl (ha b hb), h.layout⟩
  rw [← h.places] at ha
  obtain ⟨answer, hanswer, rfl⟩ := List.mem_map.mp ha
  obtain ⟨old, new, -, hnew, -⟩ := h.each answer hanswer
  exact ⟨new, hnew⟩

namespace Path

variable {selector : Selector} {rest : List Selector} {before after inner : Value}
  {first : Address}

/-- Trees that agree except below the picks agree so below the first step. -/
theorem agrees_below (h : Value.Agrees (picks (selector :: rest) before) before after)
    (hfirst : first ∈ selector.locate before) (hinner : before.get? first = some inner) :
    ∃ inner', after.get? first = some inner' ∧ Value.Agrees (picks rest inner) inner inner' := by
  -- A pick is below this location, or it is apart from everything below it.
  have hpicks : ∀ b ∈ picks (selector :: rest) before,
      (∃ c ∈ picks rest inner, b = first ++ c) ∨ ∀ a, Address.Disjoint b (first ++ a) := by
    intro b hb
    obtain ⟨other, hother, inner', hinner', c, hc, rfl⟩ := mem_picks_cons.mp hb
    by_cases hsame : other = first
    · subst hsame
      obtain rfl := Option.some.inj (hinner.symm.trans hinner')
      exact .inl ⟨c, hc, rfl⟩
    · have hapart := Selector.disjoint_of_mem_locate hother hfirst hsame
      exact .inr fun a => hapart.append c a
  have hthere : ∃ inner', after.get? first = some inner' := by
    cases hrest : picks rest inner with
    | nil =>
        refine ⟨inner, ?_⟩
        rw [h.frame first fun b hb => ?_, hinner]
        rcases hpicks b hb with ⟨c, hc, -⟩ | hapart
        · rw [hrest] at hc
          cases hc
        · have hfirst := hapart []
          rwa [List.append_nil] at hfirst
    | cons c others =>
        have hpick : first ++ c ∈ picks (selector :: rest) before := by
          refine mem_picks_cons.mpr ⟨first, hfirst, inner, hinner, c, ?_, rfl⟩
          rw [hrest]
          exact List.mem_cons_self ..
        obtain ⟨new, hnew⟩ := h.there _ hpick
        rw [Value.get?_append, Option.bind_eq_some_iff] at hnew
        obtain ⟨inner', hinner', -⟩ := hnew
        exact ⟨inner', hinner'⟩
  obtain ⟨inner', hinner'⟩ := hthere
  have hbefore : ∀ a, before.get? (first ++ a) = inner.get? a := by
    intro a
    rw [Value.get?_append, hinner, Option.bind_some]
  have hafter : ∀ a, after.get? (first ++ a) = inner'.get? a := by
    intro a
    rw [Value.get?_append, hinner', Option.bind_some]
  refine ⟨inner', hinner', ?_, ?_, ?_⟩
  · intro c hc
    rw [← hafter]
    exact h.there _ (mem_picks_cons.mpr ⟨first, hfirst, inner, hinner, c, hc, rfl⟩)
  · intro a ha
    rw [← hafter, ← hbefore]
    refine h.frame _ fun b hb => ?_
    rcases hpicks b hb with ⟨c, hc, rfl⟩ | hapart
    · exact Address.disjoint_append_left_iff.mpr (ha c hc)
    · exact hapart a
  · intro a ha
    rw [← hafter, ← hbefore]
    refine h.layout _ fun b hb => ?_
    rcases hpicks b hb with ⟨c, hc, rfl⟩ | hapart
    · exact fun hle => ha c hc ((List.prefix_append_right_inj first).mp hle)
    · exact (hapart a).1

theorem layout_of_agrees (h : Value.Agrees (picks (selector :: rest) before) before after)
    (hne : ∀ b ∈ picks (selector :: rest) before, b ≠ []) : after.layout = before.layout := by
  have hmap := h.layout [] fun b hb hle => hne b hb (List.prefix_nil.mp hle)
  rw [Value.get?_nil, Value.get?_nil] at hmap
  exact Option.some.inj hmap

theorem layout_of_reach (h : Value.Agrees (picks (selector :: rest) before) before after)
    (hreach : selector.reach = 1) : after.layout = before.layout := by
  refine layout_of_agrees h fun b hb hnil => ?_
  obtain ⟨other, hother, -, -, below, -, rfl⟩ := mem_picks_cons.mp hb
  rw [List.append_eq_nil_iff] at hnil
  have hlength := Selector.length_of_mem_locate hother
  rw [hnil.1, hreach] at hlength
  cases hlength

/-- A selector has nothing to make as long as it still picks something. -/
theorem settled_of_reach (h : Value.Agrees (picks (selector :: rest) before) before after)
    (hpicked : selector.locate after ≠ []) (hsettled : selector.Settled before) :
    selector.Settled after := by
  rcases selector.reach_cases with hreach | ⟨pattern, rfl⟩
  · exact Selector.settled_congr (layout_of_reach h hreach).symm (fun _ => hpicked) hsettled
  · cases after <;> trivial

/-- A first step that is picked afterwards was picked before. -/
theorem mem_locate_of_agrees (h : Value.Agrees (picks (selector :: rest) before) before after)
    (hfirst : first ∈ selector.locate after) : first ∈ selector.locate before := by
  by_cases habove : ∃ b ∈ picks (selector :: rest) before, first <+: b
  · -- A pick goes through this location.
    obtain ⟨b, hb, hpre⟩ := habove
    obtain ⟨other, hother, -, -, c, -, rfl⟩ := mem_picks_cons.mp hb
    have hlength : first.length = other.length :=
      (Selector.length_of_mem_locate hfirst).trans (Selector.length_of_mem_locate hother).symm
    have hboth := List.prefix_of_prefix_length_le hpre (List.prefix_append other c)
      (Nat.le_of_eq hlength)
    rw [hboth.eq_of_length hlength]
    exact hother
  · -- No pick goes through it, so it is as before.
    have hapart : ∀ b ∈ picks (selector :: rest) before, Address.Disjoint b first := by
      intro b hb
      refine ⟨fun hpre => ?_, fun hpre => habove ⟨b, hb, hpre⟩⟩
      have hle : first.length ≤ b.length := by
        obtain ⟨other, hother, -, -, c, -, rfl⟩ := mem_picks_cons.mp hb
        rw [Selector.length_of_mem_locate hfirst, List.length_append,
          Selector.length_of_mem_locate hother]
        exact Nat.le_add_right _ _
      rw [hpre.eq_of_length_le hle] at hb
      exact habove ⟨first, hb, List.prefix_refl first⟩
    have hlayout : after.layout = before.layout := by
      refine layout_of_agrees h fun b hb hnil => ?_
      rw [hnil] at hb
      exact (hapart [] hb).1 List.nil_prefix
    exact Selector.mem_locate_congr hlayout (h.frame first hapart) hfirst

/-- A write below the picks makes no new picks. -/
theorem mem_picks_of_agrees {selectors : List Selector} {before after : Value}
    (h : Value.Agrees (picks selectors before) before after) {a : Address}
    (ha : a ∈ picks selectors after) : a ∈ picks selectors before := by
  induction selectors generalizing before after a with
  | nil => exact ha
  | cons selector rest ih =>
      obtain ⟨first, hfirst, inner', hinner', below, hbelow, rfl⟩ := mem_picks_cons.mp ha
      have hbefore := mem_locate_of_agrees h hfirst
      obtain ⟨-, inner, hinner, -⟩ := Selector.mem_locate.mp hbefore
      obtain ⟨new, hnew, hagrees⟩ := agrees_below h hbefore hinner
      obtain rfl := Option.some.inj (hinner'.symm.trans hnew)
      exact mem_picks_cons.mpr ⟨first, hbefore, inner, hinner, below, ih hagrees hbelow, rfl⟩

/-- A tree stays settled when a write below the picks keeps all of them. -/
theorem settled_of_kept {selectors : List Selector} {before after : Value}
    (h : Value.Agrees (picks selectors before) before after)
    (hkept : ∀ a ∈ picks selectors before, a ∈ picks selectors after)
    (hsettled : Settled selectors before) : Settled selectors after := by
  induction selectors generalizing before after with
  | nil => trivial
  | cons selector rest ih =>
      refine ⟨?_, fun first hfirst inner' hinner' => ?_⟩
      · by_cases hnone : picks (selector :: rest) before = []
        · -- Nothing is picked, so nothing was written.
          have hsame := h.frame [] (by rw [hnone]; nofun)
          rw [Value.get?_nil, Value.get?_nil, Option.some.injEq] at hsame
          rw [hsame]
          exact hsettled.1
        · obtain ⟨b, hb⟩ := List.exists_mem_of_ne_nil _ hnone
          obtain ⟨first, hfirst, -⟩ := mem_picks_cons.mp (hkept b hb)
          exact settled_of_reach h (List.ne_nil_of_mem hfirst) hsettled.1
      · have hbefore := mem_locate_of_agrees h hfirst
        obtain ⟨-, inner, hinner, -⟩ := Selector.mem_locate.mp hbefore
        obtain ⟨new, hnew, hagrees⟩ := agrees_below h hbefore hinner
        obtain rfl := Option.some.inj (hinner'.symm.trans hnew)
        refine ih hagrees (fun c hc => ?_) (hsettled.2 first hbefore inner hinner)
        have hpick := hkept _ (mem_picks_cons.mpr ⟨first, hbefore, inner, hinner, c, hc, rfl⟩)
        obtain ⟨other, hother, found, hfound, c', hc', heq⟩ := mem_picks_cons.mp hpick
        have hlength : first.length = other.length :=
          (Selector.length_of_mem_locate hfirst).trans (Selector.length_of_mem_locate hother).symm
        obtain ⟨rfl, rfl⟩ := List.append_inj heq hlength
        obtain rfl := Option.some.inj (hinner'.symm.trans hfound)
        exact hc'

/-- Selectors without patterns pick the same, whatever is written below the picks. -/
theorem picks_of_plain {selectors : List Selector} {before after : Value}
    (hplain : ∀ selector ∈ selectors, selector.pattern? = none)
    (h : Value.Agrees (picks selectors before) before after) :
    picks selectors after = picks selectors before := by
  induction selectors generalizing before after with
  | nil => rfl
  | cons selector rest ih =>
      obtain ⟨hnone, hrest⟩ := List.forall_mem_cons.mp hplain
      have hreach := Selector.reach_of_plain hnone
      have hlocate : selector.locate after = selector.locate before := by
        refine Selector.locate_congr hreach (layout_of_reach h hreach) fun _ _ _ _ _ _ => ?_
        rw [Selector.admits, Selector.admits, hnone, Option.all_none, Option.all_none]
      rw [picks, picks, hlocate]
      refine List.flatMap_congr fun first hfirst => ?_
      obtain ⟨-, inner, hinner, -⟩ := Selector.mem_locate.mp hfirst
      obtain ⟨inner', hinner', hagrees⟩ := agrees_below h hfirst hinner
      rw [Value.searchAt_of_get? _ hinner, Value.searchAt_of_get? _ hinner', ih hrest hagrees]

/-- Selectors without patterns keep their picks, whatever is written below them. -/
theorem kept_of_plain {selectors : List Selector} {before after : Value}
    (hplain : ∀ selector ∈ selectors, selector.pattern? = none)
    (h : Value.Agrees (picks selectors before) before after) :
    ∀ a ∈ picks selectors before, a ∈ picks selectors after := by
  simp [picks_of_plain hplain h]

/-! ## Writing to a path again -/

/-- The second write changes nothing when it finds its parents without making any. -/
theorem writeValue_of_wrote {path : Path} {selectors : List Selector} {last : Selector}
    {value grown result : Value} {parents : List Address} {answers : List (Address × Nat)}
    (hselectors : path.selectors = selectors ++ [last])
    (hwrote : Value.EditedEach (last.Wrote value) parents grown result answers)
    (hself : value.equal value = true) {found : List Address}
    (hfound : path.ensureParents result = (result, .ok found)) (hsub : ∀ a ∈ found, a ∈ parents) :
    path.writeValue result value = (result, .ok 0) := by
  have hstep : ∀ a ∈ found, ∃ old, result.get? a = some old ∧ ∀ s : Supply, s.Constant value →
      ((last.write old).run s).1 = (old, 0) ∧ ((last.write old).run s).2.Constant value := by
    intro a ha
    obtain ⟨old, new, count, -, -, hnew, hwrote⟩ := hwrote.wrote_at (hsub a ha)
    exact ⟨new, hnew, fun s hs => hwrote.write_again hself hs⟩
  obtain ⟨hrun, -⟩ := Value.editEach_of_unchanged hstep _ (Supply.constant_always value)
  have hsum : ((found.map fun a => (a, 0)).map Prod.snd).sum = 0 := by
    simp [Function.comp_def]
  rw [writeValue_of_concat hselectors, hfound]
  dsimp only
  rw [hrun, hsum]

/-- A write that counts no change has changed nothing since the parents were
ensured. -/
theorem ensureParents_of_writeValue_zero {path : Path} {root value result : Value}
    (h : path.writeValue root value = (result, .ok 0)) :
    ∃ parents, path.ensureParents root = (result, .ok parents) := by
  rcases path.selectors_cases with hnil | ⟨selectors, last, hselectors⟩
  · rw [writeValue_of_nil hnil] at h
    obtain ⟨rfl, -⟩ := Prod.mk.inj h
    exact ⟨[[]], ensureParents_of_nil hnil root⟩
  · obtain ⟨grown, parents, answers, hparents, hedited, hcount⟩ := wrote_of_writeValue hselectors h
    have hzero := List.sum_eq_zero_iff_forall_eq_nat.mp hcount.symm
    have hsame : result.get? [] = grown.get? [] := by
      refine hedited.frame [] fun parent hparent => .inr ?_
      obtain ⟨old, new, count, hanswer, hold, hnew, hwrote⟩ := hedited.wrote_at hparent
      rw [hold, hnew, hwrote.unchanged (hzero count (List.mem_map_of_mem hanswer))]
    rw [Value.get?_nil, Value.get?_nil] at hsame
    exact ⟨parents, by rw [hparents, Option.some.inj hsame]⟩

/-- The second write finds its parents without making any, when everything is still
picked that was written to. -/
theorem ensureParents_of_kept {path : Path} {selectors : List Selector} {last : Selector}
    {grown result : Value} (hselectors : path.selectors = selectors ++ [last])
    (hagrees : Value.Agrees (picks selectors grown) grown result)
    (hsettled : Settled selectors grown) (hne : picks selectors grown ≠ [])
    (hkept : ∀ a ∈ picks selectors grown, a ∈ picks selectors result) :
    path.ensureParents result = (result, .ok (picks selectors result)) := by
  have hne' : picks selectors result ≠ [] := by
    obtain ⟨a, ha⟩ := List.exists_mem_of_ne_nil _ hne
    exact List.ne_nil_of_mem (hkept a ha)
  rw [ensureParents_eq_ok, hselectors]
  exact @ensureParentsFrom_of_settled selectors last result [] 0
    (settled_of_kept hagrees hkept hsettled) hne'

/-- A second write of the same value changes nothing, and counts nothing, exactly
when it finds its parents without making any.  That is so whenever the selectors
before the last one still find every parent that was written to, and always if none
of them has a pattern. -/
theorem writeValue_again {text : String} {limit : Nat} {path : Path}
    (hparse : parse text limit = .ok path) (hnumbers : path.isNaNFree = true)
    {root value result : Value} {count : Nat} (hkeyed : value.Keyed)
    (hvalue : value.isNaNFree = true) (h : path.writeValue root value = (result, .ok count)) :
    (path.writeValue result value = (result, .ok 0)
        ↔ ∃ parents, path.ensureParents result = (result, .ok parents))
      ∧ (∀ grown parents found, path.ensureParents root = (grown, .ok parents) →
          locateFrom result 0 path.selectors.dropLast [[]] = .ok found →
          (∀ parent ∈ parents, parent ∈ found) →
          path.writeValue result value = (result, .ok 0))
      ∧ ((∀ selector ∈ path.selectors.dropLast, selector.pattern? = none) →
          path.writeValue result value = (result, .ok 0)) := by
  have hself := Value.equal_self hkeyed hvalue
  rcases path.selectors_cases with hnil | ⟨selectors, last, hselectors⟩
  · have hagain := writeValue_of_nil hnil result value
    exact ⟨⟨ensureParents_of_writeValue_zero, fun _ => hagain⟩, fun _ _ _ _ _ _ => hagain,
      fun _ => hagain⟩
  · have hcopy : ∀ selector ∈ selectors, selector.Copyable := by
      intro selector hmem
      refine copyable_of_parse hparse hnumbers selector ?_
      rw [hselectors]
      exact List.mem_append_left _ hmem
    rw [writeValue_of_concat hselectors] at h
    rw [hselectors, List.dropLast_concat]
    generalize hparents : path.ensureParents root = outcome at h
    obtain ⟨grown, failure | parents⟩ := outcome
    · cases (Prod.mk.inj h).2
    · have hwrote := @editEach_write last value grown parents (ensureParents_sites hparents) _
        (Supply.constant_always value)
      obtain ⟨hresult, -⟩ := Prod.mk.inj h
      rw [hresult] at hwrote
      obtain ⟨hsettled, hpicks, hne⟩ := ensureParents_spec hselectors hcopy hparents
      have hagrees := hwrote.agrees
      rw [hpicks] at hagrees hne
      have hagain : ∀ found, path.ensureParents result = (result, .ok found) →
          path.writeValue result value = (result, .ok 0) := by
        intro found hfound
        refine writeValue_of_wrote hselectors hwrote hself hfound fun a ha => ?_
        rw [(ensureParents_spec hselectors hcopy hfound).2.1] at ha
        rw [hpicks]
        exact mem_picks_of_agrees hagrees ha
      refine ⟨⟨ensureParents_of_writeValue_zero, fun ⟨found, hfound⟩ => hagain found hfound⟩,
        ?_, fun hplain => ?_⟩
      · intro grown' parents' found hensured hfound hkept
        obtain ⟨rfl, hsame⟩ := Prod.mk.inj hensured
        obtain rfl := Except.ok.inj hsame
        rw [hpicks, picks_of_locateFrom [] 0 hfound] at hkept
        exact hagain _ (ensureParents_of_kept hselectors hagrees hsettled hne hkept)
      · have hkept := kept_of_plain hplain hagrees
        exact hagain _ (ensureParents_of_kept hselectors hagrees hsettled hne hkept)

/-- A path with nothing but keys and elements on the way is written to once.  So is a path with
a filter that still picks, after the write, the element that was made for it. -/
theorem writeValue_again_in_list :
    let value : Value := .scalar (.int 1)
    let path : Path := ⟨"a[].b", [⟨.child "a", 1⟩, ⟨.elements, 3⟩, ⟨.child "b", 5⟩]⟩
    let root : Value := .compound [("a", .list [.compound [], .scalar (.int 0)])]
    let result : Value :=
      .compound [("a", .list [.compound [("b", value)], .scalar (.int 0)])]
    let pattern : Compound := [("c", .scalar (.string "d"))]
    let filtering : Path := ⟨"a[{c:d}].b", [⟨.child "a", 1⟩, ⟨.elementsMatching pattern, 8⟩,
      ⟨.child "b", 10⟩]⟩
    let kept : Value := .compound [("a", .list [.compound (pattern ++ [("b", value)])])]
    parse path.text = .ok path ∧ path.writeValue root value = (result, .ok 1)
      ∧ path.writeValue result value = (result, .ok 0)
      ∧ parse filtering.text = .ok filtering
      ∧ filtering.writeValue (.compound []) value = (kept, .ok 1)
      ∧ filtering.writeValue kept value = (kept, .ok 0) := by
  intro value path root result pattern filtering kept
  have hparse : parse path.text = .ok path := by cbv
  have hwrite : path.writeValue root value = (result, .ok 1) := rfl
  have hplain : ∀ selector ∈ path.selectors.dropLast, selector.pattern? = none := by
    simp [path, selectors, Selector.pattern?]
  have hfiltering : parse filtering.text = .ok filtering := by cbv
  have hmade : filtering.writeValue (.compound []) value = (kept, .ok 1) := rfl
  have hparents : filtering.ensureParents (.compound [])
      = (.compound [("a", .list [.compound pattern])], .ok [[.key "a", .index 0]]) := rfl
  have hfound : locateFrom kept 0 filtering.selectors.dropLast [[]]
      = .ok [[.key "a", .index 0]] := rfl
  obtain ⟨-, -, hagain⟩ := writeValue_again hparse rfl .scalar rfl hwrite
  obtain ⟨-, hagainKept, -⟩ := writeValue_again hfiltering rfl .scalar rfl hmade
  exact ⟨hparse, hwrite, hagain hplain, hfiltering, hmade,
    hagainKept _ _ _ hparents hfound fun _ hmem => hmem⟩

/-- In an empty tree `items[{id:a}].id` is the key of an element that is made as the
filter asks.  The write of `b` to it takes the element away from the filter, and the
second write makes another element. -/
theorem writeValue_twice_differs :
    let path : Path := ⟨"items[{id:a}].id", [⟨.child "items", 5⟩,
      ⟨.elementsMatching [("id", .scalar (.string "a"))], 13⟩, ⟨.child "id", 16⟩]⟩
    let value : Value := .scalar (.string "b")
    let element : Value := .compound [("id", value)]
    let once : Value := .compound [("items", .list [element])]
    let twice : Value := .compound [("items", .list [element, element])]
    parse path.text = .ok path ∧ path.isNaNFree = true ∧ value.isNaNFree = true
      ∧ path.writeValue (.compound []) value = (once, .ok 1)
      ∧ path.writeValue once value = (twice, .ok 1)
      ∧ path.writeValue once value ≠ (once, .ok 0) := by
  intro path value element once twice
  have hparse : parse path.text = .ok path := by cbv
  have hagain : path.writeValue once value = (twice, .ok 1) := rfl
  refine ⟨hparse, rfl, rfl, rfl, hagain, fun h => ?_⟩
  have hcount := (Prod.mk.inj (hagain.symm.trans h)).2
  exact absurd (Except.ok.inj hcount) (by decide)

end Path

end TreeQuery
