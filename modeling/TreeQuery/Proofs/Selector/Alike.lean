import TreeQuery.Proofs.Selector.Erase
import TreeQuery.Proofs.Value.Alike
import TreeQuery.Proofs.Value.Merging

/-!
# Selectors and trees that are alike

A selector picks the same addresses in values that are alike (`locate_alike`), and its
edits leave values that are alike, with the same answers (`ensure_alike`, `write_alike`,
`erase_alike`).

Edits take values from supplies.  Two such runs are compared in lockstep: from supplies
that are alike they give answers that are related, and leave supplies that are alike.
`Lockstep` is the interface of such a comparison, which is all that the loop over many
addresses needs (`Lockstep.editEach`).
-/

namespace TreeQuery

/-! ## Runs in lockstep -/

/-- A comparison of runs that goes from the parts to the whole. -/
structure Lockstep (m : Type → Type) [Monad m] where
  /-- The answers of two runs are related. -/
  Rel {α β : Type} : (α → β → Prop) → m α → m β → Prop
  /-- Answers without a run. -/
  pure {α β : Type} {r : α → β → Prop} {a : α} {b : β} : r a b → Rel r (pure a) (pure b)
  /-- One run after the other. -/
  bind {α β γ δ : Type} {r : α → β → Prop} {q : γ → δ → Prop} {first : m α} {second : m β}
    {next : α → m γ} {next' : β → m δ} : Rel r first second →
    (∀ a b, r a b → Rel q (next a) (next' b)) → Rel q (first >>= next) (second >>= next')

/-- Edits have left trees that are alike, with the same answer. -/
def AlikeEdit {α : Type} (first second : Value × α) : Prop :=
  first.1.Alike second.1 ∧ first.2 = second.2

/-- Edits in lockstep of single values make edits in lockstep of whole trees. -/
theorem Lockstep.editEach {m : Type → Type} [Monad m] (lockstep : Lockstep m) {α : Type}
    {edit edit' : Value → m (Value × α)}
    (hedit : ∀ old old', old.Alike old' → lockstep.Rel AlikeEdit (edit old) (edit' old'))
    (addresses : List Address) {root root' : Value} (h : root.Alike root') :
    lockstep.Rel AlikeEdit (Value.editEach edit addresses root)
      (Value.editEach edit' addresses root') := by
  induction addresses generalizing root root' with
  | nil => exact lockstep.pure ⟨h, rfl⟩
  | cons address rest ih =>
      rw [Value.editEach, Value.editEach]
      obtain ⟨hold, hold'⟩ | ⟨old, old', hold, hold', halike⟩ := optionRel_cases (h.get? address)
      · rw [hold, hold']
        exact ih h
      · rw [hold, hold']
        refine lockstep.bind (hedit old old' halike) fun first second hfirst => ?_
        obtain ⟨new, answer⟩ := first
        obtain ⟨new', answer'⟩ := second
        obtain ⟨hnew, rfl⟩ : new.Alike new' ∧ answer = answer' := hfirst
        refine lockstep.bind (ih (h.put address hnew)) fun others others' hothers => ?_
        exact lockstep.pure ⟨hothers.1, by rw [hothers.2]⟩

/-- Runs without a state. -/
def Lockstep.plain : Lockstep Id where
  Rel r first second := r first.run second.run
  pure h := h
  bind h hnext := hnext _ _ h

/-- The supplies have given as many values, and the ones to come are alike. -/
def Supply.Alike (first second : Supply) : Prop :=
  first.used = second.used ∧ ∀ number, (first.value number).Alike (second.value number)

theorem Supply.alike_always {value value' : Value} (h : value.Alike value') :
    (Supply.always value).Alike (.always value') :=
  ⟨rfl, fun _ => h⟩

/-- Runs that take values from supplies that are alike. -/
def Lockstep.supplied : Lockstep Supplied where
  Rel r first second := ∀ s s' : Supply, s.Alike s' →
    r (first.run s).1 (second.run s').1 ∧ (first.run s).2.Alike (second.run s').2
  pure h _ _ hs := ⟨h, hs⟩
  bind h hnext s s' hs := hnext _ _ (h s s' hs).1 _ _ (h s s' hs).2

theorem Supply.next_alike : Lockstep.supplied.Rel Value.Alike Supply.next Supply.next := by
  rintro ⟨value, used⟩ ⟨value', used'⟩ ⟨hused, hvalues⟩
  obtain rfl : used = used' := hused
  exact ⟨hvalues used, rfl, hvalues⟩

theorem Supply.take_alike (count : Nat) :
    Lockstep.supplied.Rel (List.Forall₂ Value.Alike) (Supply.take count) (Supply.take count) := by
  induction count with
  | zero => exact Lockstep.supplied.pure .nil
  | succ count ih =>
      refine Lockstep.supplied.bind Supply.next_alike fun first first' hfirst => ?_
      refine Lockstep.supplied.bind ih fun rest rest' hrest => ?_
      exact Lockstep.supplied.pure (.cons hfirst hrest)

/-! ## Compounds without a key -/

/-- After a key was taken away it has no value, and every other key its old one. -/
theorem Compound.get?_erase {entries : Compound} (hkeys : (keys entries).Nodup)
    (name other : String) :
    get? (erase entries name) other = if name = other then none else get? entries other := by
  induction entries with
  | nil => simp [erase, get?]
  | cons entry rest ih =>
      obtain ⟨key, value⟩ := entry
      obtain ⟨hnew, hrest⟩ := List.nodup_cons.mp hkeys
      by_cases hkey : key = name
      · subst hkey
        rw [erase, if_pos rfl]
        split
        · next hother =>
          subst hother
          exact get?_of_notMem hnew
        · next hother => rw [get?, if_neg hother]
      · rw [erase, if_neg hkey, get?, get?, ih hrest]
        by_cases hother : key = other
        · simp [hother, Ne.symm (hother ▸ hkey)]
        · simp [hother]

theorem Value.Alike.erase {entries entries' : Compound}
    (h : (Value.compound entries).Alike (.compound entries')) (name : String) :
    (Value.compound (Compound.erase entries name)).Alike
      (.compound (Compound.erase entries' name)) := by
  obtain ⟨hkeys, hkeys', hget⟩ := alike_compound.mp h
  have hnodup : ∀ {entries : Compound}, (Compound.keys entries).Nodup →
      (Compound.keys (Compound.erase entries name)).Nodup := by
    intro entries hkeys
    rw [Compound.erase_eq_filter hkeys]
    exact hkeys.sublist (List.Sublist.map _ List.filter_sublist)
  refine alike_compound.mpr ⟨hnodup hkeys, hnodup hkeys', fun other => ?_⟩
  rw [Compound.get?_erase hkeys, Compound.get?_erase hkeys']
  split
  · exact .none
  · exact hget other

namespace Selector

/-- The pattern of the selector, if it has one, is alike itself. -/
def Numbered (selector : Selector) : Prop :=
  ∀ pattern ∈ selector.pattern?, (Value.compound pattern).Alike (.compound pattern)

variable {value value' : Value}

/-! ## Picking -/

theorem locate_alike (h : value.Alike value') (selector : Selector) :
    selector.locate value = selector.locate value' := by
  cases selector with
  | rootMatching pattern => rw [locate, locate, h.accepts_congr pattern]
  | child name =>
      cases h.like with
      | compound =>
          have hsome := (optionRel_iff.mp (h.child? (.key name))).1
          simp only [Value.child?] at hsome
          rw [locate, locate, hsome]
      | list => rfl
      | scalar => rfl
  | childMatching name pattern =>
      cases h.like with
      | compound =>
          have hany := any_congr_of_rel (h.child? (.key name))
            fun _ _ hchild => hchild.accepts_congr pattern
          simp only [Value.child?] at hany
          rw [locate, locate, hany]
      | list => rfl
      | scalar => rfl
  | elements =>
      cases h.like with
      | compound => rfl
      | list =>
          have hmap := map_congr_of_forall₂ (Value.alike_list.mp h)
            (f := fun _ => true) (g := fun _ => true) fun _ _ _ => rfl
          rw [locate, locate, positionsFrom_congr hmap]
      | scalar => rfl
  | element index =>
      cases h.like with
      | compound => rfl
      | list => rw [locate, locate, (Value.alike_list.mp h).length_eq]
      | scalar => rfl
  | elementsMatching pattern =>
      cases h.like with
      | compound => rfl
      | list =>
          have hmap := map_congr_of_forall₂ (Value.alike_list.mp h)
            fun _ _ hitem => hitem.accepts_congr pattern
          rw [locate, locate, positionsFrom_congr hmap]
      | scalar => rfl

/-! ## Ensuring -/

theorem ensure_alike (h : value.Alike value') {selector : Selector}
    (hpattern : selector.Numbered) :
    Lockstep.supplied.Rel AlikeEdit (selector.ensure value) (selector.ensure value') := by
  -- A value of the wrong kind is left as it is.
  have hnothing : Lockstep.supplied.Rel AlikeEdit (pure (value, selector.locate value))
      (pure (value', selector.locate value')) :=
    Lockstep.supplied.pure ⟨h, locate_alike h selector⟩
  cases selector with
  | child name =>
      cases h.like with
      | compound =>
          have hsome := (optionRel_iff.mp (h.child? (.key name))).1
          simp only [Value.child?] at hsome
          rw [ensure, ensure, hsome]
          split
          · exact Lockstep.supplied.pure ⟨h, rfl⟩
          · refine Lockstep.supplied.bind Supply.next_alike fun new new' hnew => ?_
            exact Lockstep.supplied.pure ⟨h.insert name hnew, rfl⟩
      | list => exact hnothing
      | scalar => exact hnothing
  | childMatching name pattern =>
      cases h.like with
      | compound =>
          have hget := h.child? (.key name)
          simp only [Value.child?] at hget
          rw [ensure, ensure]
          obtain ⟨hold, hold'⟩ | ⟨old, old', hold, hold', hchild⟩ := optionRel_cases hget
          · rw [hold, hold']
            exact Lockstep.supplied.pure ⟨h.insert name (hpattern pattern rfl), rfl⟩
          · rw [hold, hold']
            exact Lockstep.supplied.pure ⟨h, by rw [hchild.accepts_congr pattern]⟩
      | list => exact hnothing
      | scalar => exact hnothing
  | rootMatching pattern => exact hnothing
  | elements =>
      cases h.like with
      | compound => exact hnothing
      | list =>
          cases Value.alike_list.mp h with
          | nil =>
              refine Lockstep.supplied.bind Supply.next_alike fun new new' hnew => ?_
              exact Lockstep.supplied.pure ⟨Value.alike_list.mpr (.cons hnew .nil), rfl⟩
          | cons => exact hnothing
      | scalar => exact hnothing
  | element index => exact hnothing
  | elementsMatching pattern =>
      cases h.like with
      | compound => exact hnothing
      | @list items items' =>
          have hitems := Value.alike_list.mp h
          have hany := any_congr_of_forall₂ hitems fun _ _ hitem => hitem.accepts_congr pattern
          rw [ensure, ensure, hany]
          have hgrown : ∀ condition : Bool, ∀ {items items' : List Value},
              List.Forall₂ Value.Alike items items' →
                (Value.list (if condition then items else items ++ [.compound pattern])).Alike
                  (.list (if condition then items' else items' ++ [.compound pattern])) := by
            intro condition items items' hitems
            rw [Value.alike_list]
            split
            · exact hitems
            · exact List.rel_append hitems (.cons (hpattern pattern rfl) .nil)
          have hnew := hgrown (items'.any pattern.accepts) hitems
          exact Lockstep.supplied.pure ⟨hnew, locate_alike hnew (.elementsMatching pattern)⟩
      | scalar => exact hnothing

/-! ## Writing -/

theorem overwrite_alike {old old' new new' : Value} (hold : old.Alike old')
    (hnew : new.Alike new') : AlikeEdit (overwrite old new) (overwrite old' new') := by
  rw [overwrite, overwrite, hold.equal_congr hnew]
  split
  · exact ⟨hold, rfl⟩
  · exact ⟨hnew, rfl⟩

/-- Edits have left lists that are alike, with the same count. -/
def AlikeItems (first second : List Value × Nat) : Prop :=
  List.Forall₂ Value.Alike first.1 second.1 ∧ first.2 = second.2

theorem overwriteEach_alike {condition : Value → Bool}
    (hcondition : ∀ item item' : Value, item.Alike item' → condition item = condition item')
    {items items' : List Value} (h : List.Forall₂ Value.Alike items items') :
    Lockstep.supplied.Rel AlikeItems (overwriteEach condition items)
      (overwriteEach condition items') := by
  induction h with
  | nil => exact Lockstep.supplied.pure ⟨.nil, rfl⟩
  | @cons item item' rest rest' hitem _ ih =>
      rw [overwriteEach, overwriteEach, hcondition item item' hitem]
      split
      · refine Lockstep.supplied.bind Supply.next_alike fun new new' hnew => ?_
        obtain ⟨hwritten, hcount⟩ := overwrite_alike hitem hnew
        refine Lockstep.supplied.bind ih fun others others' hothers => ?_
        exact Lockstep.supplied.pure
          ⟨.cons hwritten hothers.1, congrArg₂ (· + ·) hcount hothers.2⟩
      · refine Lockstep.supplied.bind ih fun others others' hothers => ?_
        exact Lockstep.supplied.pure ⟨.cons hitem hothers.1, hothers.2⟩

theorem refill_alike {items items' : List Value} (h : List.Forall₂ Value.Alike items items') :
    Lockstep.supplied.Rel AlikeItems (refill items) (refill items') := by
  refine Lockstep.supplied.bind Supply.next_alike fun first first' hfirst => ?_
  have hcount : (items.countP fun item => !item.equal first)
      = items'.countP fun item => !item.equal first' :=
    countP_congr_of_forall₂ h fun _ _ hitem => by rw [hitem.equal_congr hfirst]
  dsimp only
  rw [hcount, h.length_eq]
  split
  · exact Lockstep.supplied.pure ⟨h, rfl⟩
  · refine Lockstep.supplied.bind (Supply.take_alike _) fun others others' hothers => ?_
    exact Lockstep.supplied.pure ⟨.cons hfirst hothers, rfl⟩

theorem write_alike (h : value.Alike value') (selector : Selector) :
    Lockstep.supplied.Rel AlikeEdit (selector.write value) (selector.write value') := by
  -- A value of the wrong kind is left as it is.
  have hnothing : Lockstep.supplied.Rel AlikeEdit (pure (value, 0)) (pure (value', 0)) :=
    Lockstep.supplied.pure ⟨h, rfl⟩
  cases selector with
  | child name =>
      cases h.like with
      | compound =>
          refine Lockstep.supplied.bind Supply.next_alike fun new new' hnew => ?_
          have hany := any_congr_of_rel (h.child? (.key name))
            fun _ _ hchild => hchild.equal_congr hnew
          simp only [Value.child?] at hany
          rw [hany]
          split
          · exact hnothing
          · exact Lockstep.supplied.pure ⟨h.insert name hnew, rfl⟩
      | list => exact hnothing
      | scalar => exact hnothing
  | childMatching name pattern =>
      cases h.like with
      | compound =>
          have hget := h.child? (.key name)
          simp only [Value.child?] at hget
          rw [write, write]
          obtain ⟨hold, hold'⟩ | ⟨old, old', hold, hold', hchild⟩ := optionRel_cases hget
          · rw [hold, hold']
            exact hnothing
          · rw [hold, hold']
            dsimp only
            rw [hchild.accepts_congr pattern]
            split
            · refine Lockstep.supplied.bind Supply.next_alike fun new new' hnew => ?_
              obtain ⟨hwritten, hcount⟩ := overwrite_alike hchild hnew
              exact Lockstep.supplied.pure ⟨h.insert name hwritten, hcount⟩
            · exact hnothing
      | list => exact hnothing
      | scalar => exact hnothing
  | rootMatching pattern => exact hnothing
  | elements =>
      cases h.like with
      | compound => exact hnothing
      | list =>
          have hitems := Value.alike_list.mp h
          cases hitems with
          | nil =>
              refine Lockstep.supplied.bind Supply.next_alike fun new new' hnew => ?_
              exact Lockstep.supplied.pure ⟨Value.alike_list.mpr (.cons hnew .nil), rfl⟩
          | cons hfirst hrest =>
              refine Lockstep.supplied.bind (refill_alike (.cons hfirst hrest))
                fun written written' hwritten => ?_
              exact Lockstep.supplied.pure ⟨Value.alike_list.mpr hwritten.1, hwritten.2⟩
      | scalar => exact hnothing
  | element index =>
      cases h.like with
      | compound => exact hnothing
      | @list items items' =>
          have hitems := Value.alike_list.mp h
          rw [write, write, hitems.length_eq]
          cases resolveIndex index items'.length with
          | none => exact hnothing
          | some position =>
              refine Lockstep.supplied.bind Supply.next_alike fun new new' hnew => ?_
              have hold : (items.getD position new).Alike (items'.getD position new') := by
                rw [List.getD_eq_getElem?_getD, List.getD_eq_getElem?_getD]
                obtain ⟨hnone, hnone'⟩ | ⟨item, item', hget, hget', hitem⟩ :=
                  optionRel_cases (rel_getElem? hitems position)
                · rw [hnone, hnone']
                  exact hnew
                · rw [hget, hget']
                  exact hitem
              obtain ⟨hwritten, hcount⟩ := overwrite_alike hold hnew
              have hset := Value.forall₂_set hitems position hwritten
              exact Lockstep.supplied.pure ⟨Value.alike_list.mpr hset, hcount⟩
      | scalar => exact hnothing
  | elementsMatching pattern =>
      cases h.like with
      | compound => exact hnothing
      | list =>
          have heach := overwriteEach_alike (fun _ _ hitem => hitem.accepts_congr pattern)
            (Value.alike_list.mp h)
          refine Lockstep.supplied.bind heach fun written written' hwritten => ?_
          exact Lockstep.supplied.pure ⟨Value.alike_list.mpr hwritten.1, hwritten.2⟩
      | scalar => exact hnothing

/-! ## Erasing -/

theorem erase_alike (h : value.Alike value') (selector : Selector) :
    AlikeEdit (selector.erase value) (selector.erase value') := by
  have hnothing : AlikeEdit (value, 0) (value', 0) := ⟨h, rfl⟩
  cases selector with
  | child name =>
      cases h.like with
      | compound =>
          have hsome := (optionRel_iff.mp (h.child? (.key name))).1
          simp only [Value.child?] at hsome
          rw [erase, erase, hsome]
          split
          · exact ⟨h.erase name, rfl⟩
          · exact hnothing
      | list => exact hnothing
      | scalar => exact hnothing
  | childMatching name pattern =>
      cases h.like with
      | compound =>
          have hany := any_congr_of_rel (h.child? (.key name))
            fun _ _ hchild => hchild.accepts_congr pattern
          simp only [Value.child?] at hany
          rw [erase, erase, hany]
          split
          · exact ⟨h.erase name, rfl⟩
          · exact hnothing
      | list => exact hnothing
      | scalar => exact hnothing
  | rootMatching pattern => exact hnothing
  | elements =>
      cases h.like with
      | compound => exact hnothing
      | list => exact ⟨Value.alike_list.mpr .nil, (Value.alike_list.mp h).length_eq⟩
      | scalar => exact hnothing
  | element index =>
      cases h.like with
      | compound => exact hnothing
      | @list items items' =>
          have hitems := Value.alike_list.mp h
          rw [erase, erase, hitems.length_eq]
          cases resolveIndex index items'.length with
          | none => exact hnothing
          | some position =>
              refine ⟨Value.alike_list.mpr ?_, rfl⟩
              rw [List.eraseIdx_eq_take_drop_succ, List.eraseIdx_eq_take_drop_succ]
              exact List.rel_append (List.forall₂_take _ hitems) (List.forall₂_drop _ hitems)
      | scalar => exact hnothing
  | elementsMatching pattern =>
      cases h.like with
      | compound => exact hnothing
      | list =>
          have hitems := Value.alike_list.mp h
          refine ⟨Value.alike_list.mpr (List.rel_filter ?_ hitems), ?_⟩
          · intro item item' hitem
            simp only [hitem.accepts_congr pattern]
          · exact countP_congr_of_forall₂ hitems fun _ _ hitem => hitem.accepts_congr pattern
      | scalar => exact hnothing

end Selector

end TreeQuery
