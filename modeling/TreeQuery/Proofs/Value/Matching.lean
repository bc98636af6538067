import TreeQuery.Proofs.Address
import TreeQuery.Value.Matching

/-!
# Laws of equality and matching

A value equals itself, and as a pattern accepts itself, when its keys are distinct
and no number in it is missing (`equal_self`, `accepts_self`).

A value `Extends` another one when every pattern that accepts the old value accepts
the new one.  A value is extended by a new key, by further elements, and by the
extension of a value below it (`Extends.put`).  So what a pattern accepts, it goes
on accepting while the tree grows below it.
-/

namespace TreeQuery.Value

/-! ## Parts of compounds and lists -/

theorem acceptsEntries_iff {pattern : List (String × Value)} {candidate : Compound} :
    acceptsEntries pattern candidate = true ↔ ∀ entry ∈ pattern,
      ∃ found, Compound.get? candidate entry.1 = some found ∧ entry.2.accepts found = true := by
  induction pattern with
  | nil => simp [acceptsEntries]
  | cons entry rest ih =>
      obtain ⟨key, value⟩ := entry
      rw [acceptsEntries, Bool.and_eq_true, ih, List.forall_mem_cons]
      cases Compound.get? candidate key with
      | none => simp
      | some found => simp

theorem acceptsItems_iff {pattern candidate : List Value} :
    acceptsItems pattern candidate = true
      ↔ ∀ (position : Nat) (item : Value), pattern[position]? = some item →
        ∃ found, candidate[position]? = some found ∧ item.accepts found = true := by
  induction pattern generalizing candidate with
  | nil => simp [acceptsItems]
  | cons item rest ih =>
      cases candidate with
      | nil =>
          simp only [acceptsItems, Bool.false_eq_true, false_iff]
          intro h
          obtain ⟨found, hfound, -⟩ := h 0 item rfl
          cases hfound
      | cons first others =>
          rw [acceptsItems, Bool.and_eq_true, ih]
          constructor
          · rintro ⟨hfirst, hothers⟩ position item' hitem
            cases position with
            | zero =>
                obtain rfl := Option.some.inj hitem
                exact ⟨first, rfl, hfirst⟩
            | succ position => exact hothers position item' hitem
          · intro h
            refine ⟨?_, fun position item' hitem => h (position + 1) item' hitem⟩
            obtain ⟨found, hfound, haccepts⟩ := h 0 item rfl
            obtain rfl := Option.some.inj hfound
            exact haccepts

theorem equalEntries_iff {first : List (String × Value)} {second : Compound} :
    equalEntries first second = true ↔ ∀ entry ∈ first,
      ∃ found, Compound.get? second entry.1 = some found ∧ entry.2.equal found = true := by
  induction first with
  | nil => simp [equalEntries]
  | cons entry rest ih =>
      obtain ⟨key, value⟩ := entry
      rw [equalEntries, Bool.and_eq_true, ih, List.forall_mem_cons]
      cases Compound.get? second key with
      | none => simp
      | some found => simp

theorem equalItems_self {items : List Value} (h : ∀ item ∈ items, item.equal item = true) :
    equalItems items items = true := by
  induction items with
  | nil => rfl
  | cons item rest ih =>
      obtain ⟨hitem, hrest⟩ := List.forall_mem_cons.mp h
      rw [equalItems, hitem, ih hrest, Bool.true_and]

theorem allScalarsEntries_iff {condition : Scalar → Bool} {entries : List (String × Value)} :
    allScalarsEntries condition entries = true
      ↔ ∀ entry ∈ entries, entry.2.allScalars condition = true := by
  induction entries with
  | nil => simp [allScalarsEntries]
  | cons entry rest ih => simp [allScalarsEntries, ih]

theorem allScalarsItems_iff {condition : Scalar → Bool} {items : List Value} :
    allScalarsItems condition items = true
      ↔ ∀ item ∈ items, item.allScalars condition = true := by
  induction items with
  | nil => simp [allScalarsItems]
  | cons item rest ih => simp [allScalarsItems, ih]

/-! ## Distinct keys -/

/-- The keys of every compound of the tree are distinct. -/
inductive Keyed : Value → Prop where
  | compound {entries : Compound} : (Compound.keys entries).Nodup →
      (∀ entry ∈ entries, Keyed entry.2) → Keyed (.compound entries)
  | list {items : List Value} : (∀ item ∈ items, Keyed item) → Keyed (.list items)
  | scalar {s : Scalar} : Keyed (.scalar s)

/-- A weaker condition holds of all leaves too. -/
theorem Keyed.allScalars_imp {value : Value} (hkeyed : value.Keyed)
    {condition condition' : Scalar → Bool}
    (himp : ∀ s, condition s = true → condition' s = true)
    (h : value.allScalars condition = true) : value.allScalars condition' = true := by
  induction hkeyed with
  | compound _ _ ih =>
      exact allScalarsEntries_iff.mpr fun entry hentry =>
        ih entry hentry (allScalarsEntries_iff.mp h entry hentry)
  | list _ ih =>
      exact allScalarsItems_iff.mpr fun item hitem =>
        ih item hitem (allScalarsItems_iff.mp h item hitem)
  | @scalar s => exact himp s h

/-- A finite number is not missing. -/
theorem Keyed.isNaNFree {value : Value} (hkeyed : value.Keyed) (h : value.isFinite = true) :
    value.isNaNFree = true := by
  refine hkeyed.allScalars_imp (fun leaf hleaf => ?_) h
  cases leaf with
  | float x =>
      cases x with
      | nan => cases hleaf
      | infinite negative => rfl
      | finite negative magnitude => rfl
  | bool b => rfl
  | int n => rfl
  | string s => rfl

/-- Each entry is found under its key. -/
theorem get?_of_mem {entries : Compound} (hkeys : (Compound.keys entries).Nodup)
    {entry : String × Value} (h : entry ∈ entries) :
    Compound.get? entries entry.1 = some entry.2 := by
  induction entries with
  | nil => cases h
  | cons first rest ih =>
      obtain ⟨name, value⟩ := first
      obtain ⟨hname, hrest⟩ := List.nodup_cons.mp hkeys
      rcases List.mem_cons.mp h with rfl | hmem
      · simp [Compound.get?]
      · have hkey : entry.1 ∈ rest.map Prod.fst := List.mem_map_of_mem hmem
        have hne : name ≠ entry.1 := by
          rintro rfl
          exact hname hkey
        rw [Compound.get?, if_neg hne]
        exact ih hrest hmem

/-- What is found under a key is one of the entries. -/
theorem mem_of_get? {entries : Compound} {name : String} {value : Value}
    (h : Compound.get? entries name = some value) : (name, value) ∈ entries := by
  induction entries with
  | nil => cases h
  | cons first rest ih =>
      obtain ⟨key, old⟩ := first
      rw [Compound.get?] at h
      split at h
      · next hkey =>
        rw [hkey, Option.some.inj h]
        exact List.mem_cons_self ..
      · exact List.mem_cons_of_mem _ (ih h)

theorem mem_insert {entries : Compound} {name : String} {value : Value} {entry : String × Value}
    (h : entry ∈ Compound.insert entries name value) : entry.2 = value ∨ entry ∈ entries := by
  induction entries with
  | nil =>
      rw [Compound.insert, List.mem_singleton] at h
      exact .inl (congrArg Prod.snd h)
  | cons first rest ih =>
      obtain ⟨key, old⟩ := first
      rw [Compound.insert] at h
      split at h
      · rcases List.mem_cons.mp h with rfl | h
        · exact .inl rfl
        · exact .inr (List.mem_cons_of_mem _ h)
      · rcases List.mem_cons.mp h with rfl | h
        · exact .inr (List.mem_cons_self ..)
        · exact (ih h).imp_right (List.mem_cons_of_mem _)

theorem Keyed.insert {entries : Compound} {value : Value} (h : Keyed (.compound entries))
    (name : String) (hvalue : value.Keyed) :
    Keyed (.compound (Compound.insert entries name value)) := by
  cases h with
  | compound hkeys hentries =>
      refine .compound (Compound.nodup_keys_insert hkeys name value) fun entry hentry => ?_
      rcases mem_insert hentry with heq | hmem
      · rw [heq]
        exact hvalue
      · exact hentries entry hmem

theorem Keyed.get? {value inner : Value} {address : Address} (h : value.Keyed)
    (hget : value.get? address = some inner) : inner.Keyed := by
  induction address generalizing value with
  | nil =>
      rw [get?_nil] at hget
      exact Option.some.inj hget ▸ h
  | cons step rest ih =>
      simp only [Value.get?] at hget
      obtain ⟨child, hchild, hget⟩ := Option.bind_eq_some_iff.mp hget
      refine ih ?_ hget
      cases h with
      | compound hkeys hentries =>
          cases step with
          | key name => exact hentries _ (mem_of_get? hchild)
          | index position => cases hchild
      | list hitems =>
          cases step with
          | key name => cases hchild
          | index position => exact hitems child (List.mem_of_getElem? hchild)
      | scalar => cases hchild

theorem Keyed.putChild {value new : Value} (h : value.Keyed) (step : Step) (hnew : new.Keyed) :
    (value.putChild step new).Keyed := by
  cases h with
  | @compound entries hkeys hentries =>
      cases step with
      | key name =>
          rw [Value.putChild]
          split
          · exact (Keyed.compound hkeys hentries).insert name hnew
          · exact .compound hkeys hentries
      | index position => exact .compound hkeys hentries
  | @list items hitems =>
      cases step with
      | key name => exact .list hitems
      | index position =>
          refine .list fun item hitem => ?_
          rcases List.mem_or_eq_of_mem_set hitem with hold | rfl
          · exact hitems item hold
          · exact hnew
  | scalar => cases step <;> exact .scalar

/-- To write a tree with distinct keys into one keeps the keys distinct. -/
theorem Keyed.put {value new : Value} {address : Address} (h : value.Keyed) (hnew : new.Keyed) :
    (value.put address new).Keyed := by
  induction address generalizing value with
  | nil =>
      rw [put_nil]
      exact hnew
  | cons step rest ih =>
      rw [Value.put]
      split
      · next child hchild =>
        have hget : value.get? [step] = some child := by simp [Value.get?, hchild]
        exact h.putChild step (ih (h.get? hget))
      · exact h

/-! ## Values that equal themselves -/

theorem scalar_equal_self {s : Scalar} (h : (Value.scalar s).isNaNFree = true) :
    s.equal s = true := by
  cases s with
  | bool b => simp [Scalar.equal]
  | int n => simp [Scalar.equal]
  | float x =>
      have hnumber : x.isNaN = false := by
        simpa [isNaNFree, allScalars] using h
      rw [Scalar.equal, Binary64.equal_self, hnumber, Bool.not_false]
  | string s => simp [Scalar.equal]

/-- A tree with distinct keys and no missing number equals itself. -/
theorem equal_self {value : Value} (hkeyed : value.Keyed) (h : value.isNaNFree = true) :
    value.equal value = true := by
  induction hkeyed with
  | compound hkeys _ ih =>
      rw [isNaNFree, allScalars, allScalarsEntries_iff] at h
      rw [equal, beq_self_eq_true, Bool.true_and, equalEntries_iff]
      exact fun entry hentry =>
        ⟨entry.2, get?_of_mem hkeys hentry, ih entry hentry (h entry hentry)⟩
  | list _ ih =>
      rw [isNaNFree, allScalars, allScalarsItems_iff] at h
      rw [equal]
      exact equalItems_self fun item hitem => ih item hitem (h item hitem)
  | scalar =>
      rw [equal]
      exact scalar_equal_self h

/-- As a pattern such a tree accepts itself. -/
theorem accepts_self {value : Value} (hkeyed : value.Keyed) (h : value.isNaNFree = true) :
    value.accepts value = true := by
  induction hkeyed with
  | compound hkeys _ ih =>
      rw [isNaNFree, allScalars, allScalarsEntries_iff] at h
      rw [accepts_compound, acceptsEntries_iff]
      exact fun entry hentry =>
        ⟨entry.2, get?_of_mem hkeys hentry, ih entry hentry (h entry hentry)⟩
  | list _ ih =>
      rw [isNaNFree, allScalars, allScalarsItems_iff] at h
      rw [accepts_list, acceptsItems_iff]
      intro position item hitem
      have hmem := List.mem_of_getElem? hitem
      exact ⟨item, hitem, ih item hmem (h item hmem)⟩
  | scalar =>
      rw [accepts_scalar]
      exact scalar_equal_self h

/-! ## Extensions -/

/-- Whatever pattern accepts the old value accepts the new one. -/
def Extends (new old : Value) : Prop :=
  ∀ pattern : Value, pattern.accepts old = true → pattern.accepts new = true

theorem Extends.refl (value : Value) : value.Extends value := fun _ h => h

theorem extends_compound {new old : Compound}
    (h : ∀ name value, Compound.get? old name = some value →
      ∃ value', Compound.get? new name = some value' ∧ value'.Extends value) :
    (Value.compound new).Extends (.compound old) := by
  intro pattern hp
  cases pattern with
  | compound entries =>
      rw [accepts_compound, acceptsEntries_iff] at hp ⊢
      intro entry hentry
      obtain ⟨found, hfound, haccepts⟩ := hp entry hentry
      obtain ⟨found', hfound', hext⟩ := h entry.1 found hfound
      exact ⟨found', hfound', hext entry.2 haccepts⟩
  | list items => cases hp
  | scalar s => cases hp

theorem extends_list {new old : List Value}
    (h : ∀ (position : Nat) (value : Value), old[position]? = some value →
      ∃ value', new[position]? = some value' ∧ value'.Extends value) :
    (Value.list new).Extends (.list old) := by
  intro pattern hp
  cases pattern with
  | compound entries => cases hp
  | list items =>
      rw [accepts_list, acceptsItems_iff] at hp ⊢
      intro position item hitem
      obtain ⟨found, hfound, haccepts⟩ := hp position item hitem
      obtain ⟨found', hfound', hext⟩ := h position found hfound
      exact ⟨found', hfound', hext item haccepts⟩
  | scalar s => cases hp

/-- A new key extends a compound. -/
theorem extends_insert {entries : Compound} {name : String} (value : Value)
    (h : Compound.get? entries name = none) :
    (Value.compound (Compound.insert entries name value)).Extends (.compound entries) := by
  refine extends_compound fun other old hold => ⟨old, ?_, Extends.refl old⟩
  have hne : name ≠ other := by
    rintro rfl
    rw [h] at hold
    cases hold
  rw [Compound.get?_insert, if_neg hne, hold]

/-- Further elements extend a list. -/
theorem extends_append (items more : List Value) :
    (Value.list (items ++ more)).Extends (.list items) := by
  refine extends_list fun position old hold => ⟨old, ?_, Extends.refl old⟩
  obtain ⟨hlt, -⟩ := List.getElem?_eq_some_iff.mp hold
  rw [List.getElem?_append_left hlt, hold]

theorem Extends.putChild {value child new : Value} {step : Step}
    (hchild : value.child? step = some child) (h : new.Extends child) :
    (value.putChild step new).Extends value := by
  cases value with
  | compound entries =>
      cases step with
      | key name =>
          have hfound : Compound.get? entries name = some child := hchild
          simp only [Value.putChild, hfound, Option.isSome_some, if_true]
          refine extends_compound fun other old hold => ?_
          rw [Compound.get?_insert]
          by_cases hother : name = other
          · subst hother
            obtain rfl := Option.some.inj (hfound.symm.trans hold)
            exact ⟨new, if_pos rfl, h⟩
          · exact ⟨old, by rw [if_neg hother, hold], Extends.refl old⟩
      | index position => exact Extends.refl _
  | list items =>
      cases step with
      | key name => exact Extends.refl _
      | index position =>
          have hfound : items[position]? = some child := hchild
          refine extends_list fun other old hold => ?_
          by_cases hother : position = other
          · subst hother
            obtain ⟨hlt, -⟩ := List.getElem?_eq_some_iff.mp hfound
            obtain rfl := Option.some.inj (hfound.symm.trans hold)
            exact ⟨new, List.getElem?_set_self hlt, h⟩
          · exact ⟨old, by rw [List.getElem?_set_ne hother, hold], Extends.refl old⟩
  | scalar s => cases step <;> exact Extends.refl _

/-- To extend a value below extends the whole. -/
theorem Extends.put {value old new : Value} {address : Address}
    (hget : value.get? address = some old) (h : new.Extends old) :
    (value.put address new).Extends value := by
  induction address generalizing value with
  | nil =>
      rw [get?_nil] at hget
      rw [put_nil, Option.some.inj hget]
      exact h
  | cons step rest ih =>
      simp only [get?] at hget
      cases hchild : value.child? step with
      | none => simp [hchild] at hget
      | some child =>
          rw [hchild, Option.bind_some] at hget
          simp only [Value.put, hchild]
          exact Extends.putChild hchild (ih hget)

end TreeQuery.Value
