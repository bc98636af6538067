import Mathlib.Data.List.Nodup
import TreeQuery.Address

/-!
# Where a write is seen

A write at an address is seen at that address and below it (`get?_put_below`), and
not at an address that parts from it (`Value.get?_put_disjoint`).  Above the address
a container keeps its layout: the keys of a compound with their order, and the
length of a list (`map_layout_get?_put`).  Every address is in one of these three
relations to the written one.

The later of two writes at an address counts (`put_put_self`), and writes at addresses
that part ways can be done in either order (`put_comm`).

`Value.editEach` edits many locations in turn.  When their addresses part from each
other, no edit sees the effect of another one.  So what holds of each edit alone
holds of the whole loop, at every location (`editEach_apart`).  A property of the
tree that every single write keeps is kept by the loop in any case
(`editEach_keeps`).
-/

namespace TreeQuery

/-! ## Addresses that part ways -/

namespace Address

theorem Disjoint.symm {first second : Address} (h : Disjoint first second) :
    Disjoint second first :=
  ⟨h.2, h.1⟩

/-- Addresses that part ways do so whatever follows them. -/
theorem Disjoint.append {first second : Address} (h : Disjoint first second)
    (below below' : Address) : Disjoint (first ++ below) (second ++ below') := by
  constructor
  · intro hprefix
    have hfirst : first <+: second ++ below' := (List.prefix_append first below).trans hprefix
    rcases List.prefix_or_prefix_of_prefix hfirst (List.prefix_append second below') with hle | hle
    · exact h.1 hle
    · exact h.2 hle
  · intro hprefix
    have hsecond : second <+: first ++ below := (List.prefix_append second below').trans hprefix
    rcases List.prefix_or_prefix_of_prefix hsecond (List.prefix_append first below) with hle | hle
    · exact h.2 hle
    · exact h.1 hle

theorem Disjoint.append_left {first second : Address} (h : Disjoint first second)
    (below : Address) : Disjoint (first ++ below) second := by
  have happend := h.append below []
  rwa [List.append_nil] at happend

theorem Disjoint.append_right {first second : Address} (h : Disjoint first second)
    (below : Address) : Disjoint first (second ++ below) :=
  (h.symm.append_left below).symm

theorem disjoint_append_left_iff {above first second : Address} :
    Disjoint (above ++ first) (above ++ second) ↔ Disjoint first second := by
  simp [Disjoint]

/-- Equally long addresses part ways unless they are the same. -/
theorem disjoint_of_length_eq {first second : Address} (hlength : first.length = second.length)
    (hne : first ≠ second) : Disjoint first second :=
  ⟨fun h => hne (h.eq_of_length hlength), fun h => hne (h.eq_of_length hlength.symm).symm⟩

theorem pairwise_disjoint {addresses : List Address} {depth : Nat} (hnodup : addresses.Nodup)
    (hlength : ∀ a ∈ addresses, a.length = depth) : addresses.Pairwise Disjoint := by
  refine List.Pairwise.imp_of_mem ?_ hnodup
  intro a b ha hb hne
  exact disjoint_of_length_eq ((hlength a ha).trans (hlength b hb).symm) hne

/-- A relation between addresses that carries over to what leads on from related addresses,
and to related addresses below one location. -/
structure Carries (r : Address → Address → Prop) : Prop where
  /-- What leads on from related addresses is related. -/
  append {first second : Address} : r first second →
    ∀ below below' : Address, r (first ++ below) (second ++ below')
  /-- Related addresses are related below a location. -/
  below {first second : Address} : r first second →
    ∀ above : Address, r (above ++ first) (above ++ second)

/-- Searches below related addresses, each with related answers, have related answers
together. -/
theorem Carries.pairwise_flatMap {r : Address → Address → Prop} (hr : Carries r) {ι : Type}
    {starts : List ι} {place : ι → Address} {below : ι → List Address}
    (hstarts : (starts.map place).Pairwise r) (hbelow : ∀ i ∈ starts, (below i).Pairwise r) :
    (starts.flatMap fun i => (below i).map (place i ++ ·)).Pairwise r := by
  rw [List.pairwise_flatMap]
  constructor
  · intro i hi
    exact List.Pairwise.map _ (fun _ _ h => hr.below h (place i)) (hbelow i hi)
  · refine (List.pairwise_map.mp hstarts).imp ?_
    intro i j hij a ha b hb
    obtain ⟨c, -, rfl⟩ := List.mem_map.mp ha
    obtain ⟨d, -, rfl⟩ := List.mem_map.mp hb
    exact hr.append hij c d

theorem carries_disjoint : Carries Disjoint :=
  ⟨fun h below below' => h.append below below', fun h _ => disjoint_append_left_iff.mpr h⟩

theorem disjoint_or_prefix (first second : Address) :
    Disjoint first second ∨ first <+: second ∨ second <+: first := by
  by_cases hfirst : first <+: second
  · exact .inr (.inl hfirst)
  · by_cases hsecond : second <+: first
    · exact .inr (.inr hsecond)
    · exact .inl ⟨hfirst, hsecond⟩

end Address

/-! ## Entries of compounds -/

namespace Compound

theorem get?_isSome_iff_mem_keys {entries : Compound} {name : String} :
    (get? entries name).isSome = true ↔ name ∈ keys entries := by
  induction entries with
  | nil => simp [get?, keys]
  | cons entry rest ih =>
      obtain ⟨key, value⟩ := entry
      by_cases hkey : key = name
      · simp [get?, keys, hkey]
      · simp only [get?, if_neg hkey, ih]
        simp [keys, Ne.symm hkey]

theorem isSome_get?_congr {first second : Compound} (h : keys first = keys second)
    (name : String) : (get? first name).isSome = (get? second name).isSome := by
  rw [Bool.eq_iff_iff, get?_isSome_iff_mem_keys, get?_isSome_iff_mem_keys, h]

theorem nodup_keys_insert {entries : Compound} (h : (keys entries).Nodup) (name : String)
    (value : Value) : (keys (insert entries name value)).Nodup := by
  rw [keys_insert]
  split
  · exact h
  · next hnew => exact List.Nodup.append h (List.nodup_singleton name) (by simpa using hnew)

theorem insert_of_get?_eq_some {entries : Compound} {name : String} {old : Value}
    (h : get? entries name = some old) : insert entries name old = entries := by
  induction entries with
  | nil => cases h
  | cons entry rest ih =>
      obtain ⟨key, value⟩ := entry
      by_cases hkey : key = name
      · simp only [get?, if_pos hkey] at h
        simp only [insert, if_pos hkey, Option.some.inj h]
      · simp only [get?, if_neg hkey] at h
        simp only [insert, if_neg hkey, ih h]

/-- The later of two insertions of a key counts. -/
theorem insert_insert_self (entries : Compound) (name : String) (first second : Value) :
    insert (insert entries name first) name second = insert entries name second := by
  induction entries with
  | nil => simp [insert]
  | cons entry rest ih =>
      obtain ⟨key, value⟩ := entry
      by_cases hkey : key = name
      · simp [insert, hkey]
      · simp [insert, hkey, ih]

/-- In which order two keys are written does not matter to what is read. -/
theorem get?_insert_comm {name name' : String} (h : name ≠ name') (entries : Compound)
    (value value' : Value) (other : String) :
    get? (insert (insert entries name value) name' value') other
      = get? (insert (insert entries name' value') name value) other := by
  simp only [get?_insert]
  by_cases hname : name = other
  · rw [if_pos hname, if_pos hname, if_neg fun hname' => h (hname.trans hname'.symm)]
  · rw [if_neg hname, if_neg hname]

/-- Two keys that are there can be written in either order. -/
theorem insert_comm {entries : Compound} {name name' : String} (h : name ≠ name')
    (hname : (get? entries name).isSome = true) (hname' : (get? entries name').isSome = true)
    (value value' : Value) :
    insert (insert entries name value) name' value'
      = insert (insert entries name' value') name value := by
  induction entries with
  | nil => simp [get?] at hname
  | cons entry rest ih =>
      obtain ⟨key, old⟩ := entry
      by_cases hkey : key = name
      · have hkey' : key ≠ name' := fun heq => h (hkey ▸ heq)
        simp [insert, hkey, h]
      · by_cases hkey' : key = name'
        · simp [insert, hkey', Ne.symm h]
        · simp only [get?, if_neg hkey, if_neg hkey'] at hname hname'
          simp only [insert, if_neg hkey, if_neg hkey', ih hname hname']

end Compound

/-! ## Layouts -/

/-- What a value is, apart from its children. -/
inductive Layout where
  /-- A compound with its keys in order. -/
  | keys (names : List String)
  /-- A list and its length. -/
  | length (count : Nat)
  /-- A leaf. -/
  | leaf (s : Scalar)
deriving DecidableEq, Repr

namespace Value

/-- The layout of a value. -/
def layout : Value → Layout
  | .compound entries => .keys (Compound.keys entries)
  | .list items => .length items.length
  | .scalar s => .leaf s

theorem layout_putChild (value : Value) (step : Step) (new : Value) :
    (value.putChild step new).layout = value.layout := by
  cases value with
  | compound entries =>
      cases step with
      | key name =>
          simp only [putChild]
          split
          · next hsome =>
            have hmem : name ∈ Compound.keys entries := Compound.get?_isSome_iff_mem_keys.mp hsome
            simp only [layout, Compound.keys_insert, if_pos hmem]
          · rfl
      | index position => rfl
  | list items =>
      cases step with
      | key name => rfl
      | index position => simp only [putChild, layout, List.length_set]
  | scalar s => cases step <;> rfl

/-! ## Single steps -/

theorem get?_key (entries : Compound) (name : String) :
    (compound entries).get? [.key name] = Compound.get? entries name := by
  simp [get?, child?]

theorem get?_index (items : List Value) (position : Nat) :
    (list items).get? [.index position] = items[position]? := by
  simp [get?, child?]

theorem put_key {entries : Compound} {name : String} (new : Value)
    (h : (Compound.get? entries name).isSome = true) :
    (compound entries).put [.key name] new = .compound (Compound.insert entries name new) := by
  obtain ⟨child, hchild⟩ := Option.isSome_iff_exists.mp h
  simp [put, child?, putChild, hchild]

/-! ## One write -/

/-- Above the written location, and apart from it, every container keeps its
layout. -/
theorem map_layout_get?_put (value new : Value) {written read : Address}
    (h : ¬written <+: read) :
    ((value.put written new).get? read).map layout = (value.get? read).map layout := by
  induction written generalizing value read with
  | nil => exact absurd List.nil_prefix h
  | cons step written ih =>
      cases hchild : value.child? step with
      | none => simp only [put, hchild]
      | some child =>
          simp only [put, hchild]
          cases read with
          | nil => simp only [get?_nil, Option.map_some, layout_putChild]
          | cons step' read =>
              simp only [get?]
              by_cases hstep : step = step'
              · subst hstep
                have hrest : ¬written <+: read :=
                  fun hle => h (List.cons_prefix_cons.mpr ⟨rfl, hle⟩)
                rw [child?_putChild_self _ hchild, hchild, Option.bind_some, Option.bind_some]
                exact ih child hrest
              · rw [child?_putChild_of_ne _ _ hstep]

/-- The value above the written location keeps its layout. -/
theorem layout_put {value : Value} {address : Address} (new : Value) (h : address ≠ []) :
    (value.put address new).layout = value.layout := by
  have hmap := map_layout_get?_put value new fun hle => h (List.prefix_nil.mp hle)
  rw [get?_nil, get?_nil] at hmap
  exact Option.some.inj hmap

/-- Below the written location the new value is read. -/
theorem get?_put_below {value old : Value} {address : Address} (new : Value) (below : Address)
    (h : value.get? address = some old) :
    (value.put address new).get? (address ++ below) = new.get? below := by
  rw [get?_append, get?_put_self new h, Option.bind_some]

/-- To write below a location is to write to the value there. -/
theorem put_append {value inner : Value} {above : Address} (below : Address) (new : Value)
    (h : value.get? above = some inner) :
    value.put (above ++ below) new = value.put above (inner.put below new) := by
  induction above generalizing value with
  | nil =>
      rw [get?_nil] at h
      rw [Option.some.inj h, List.nil_append, put_nil]
  | cons step above ih =>
      simp only [get?] at h
      cases hchild : value.child? step with
      | none => simp [hchild] at h
      | some child =>
          rw [hchild, Option.bind_some] at h
          simp only [List.cons_append, put, hchild]
          rw [ih h]

theorem putChild_self {value child : Value} {step : Step} (h : value.child? step = some child) :
    value.putChild step child = value := by
  cases value with
  | compound entries =>
      cases step with
      | key name =>
          have hfound : Compound.get? entries name = some child := h
          simp only [putChild, hfound, Option.isSome_some, if_true,
            Compound.insert_of_get?_eq_some hfound]
      | index position => rfl
  | list items =>
      cases step with
      | key name => rfl
      | index position =>
          obtain ⟨hlt, hitem⟩ := List.getElem?_eq_some_iff.mp h
          simp only [putChild, ← hitem, List.set_getElem_self]
  | scalar s => cases step <;> rfl

/-- To write what is there changes nothing. -/
theorem put_get? {value old : Value} {address : Address} (h : value.get? address = some old) :
    value.put address old = value := by
  induction address generalizing value with
  | nil =>
      rw [get?_nil] at h
      rw [put_nil, Option.some.inj h]
  | cons step rest ih =>
      simp only [get?] at h
      cases hchild : value.child? step with
      | none => simp only [put, hchild]
      | some child =>
          rw [hchild, Option.bind_some] at h
          simp only [put, hchild, ih h, putChild_self hchild]

/-! ## Two writes -/

theorem putChild_putChild_self (value : Value) (step : Step) (first second : Value) :
    (value.putChild step first).putChild step second = value.putChild step second := by
  cases value with
  | compound entries =>
      cases step with
      | key name =>
          by_cases h : (Compound.get? entries name).isSome = true
          · simp [putChild, h, Compound.get?_insert, Compound.insert_insert_self]
          · simp [putChild, h]
      | index position => rfl
  | list items => cases step <;> simp [putChild]
  | scalar s => cases step <;> rfl

/-- Two children can be replaced in either order. -/
theorem putChild_comm (value : Value) {step step' : Step} (h : step ≠ step') (new new' : Value) :
    (value.putChild step new).putChild step' new'
      = (value.putChild step' new').putChild step new := by
  cases value with
  | compound entries =>
      cases step with
      | key name =>
          cases step' with
          | key name' =>
              have hne : name ≠ name' := fun heq => h (congrArg Step.key heq)
              by_cases hname : (Compound.get? entries name).isSome = true
              · by_cases hname' : (Compound.get? entries name').isSome = true
                · simp [putChild, hname, hname', Compound.get?_insert, hne, Ne.symm hne,
                    Compound.insert_comm hne hname hname']
                · simp [putChild, hname, hname', Compound.get?_insert, hne]
              · by_cases hname' : (Compound.get? entries name').isSome = true
                · simp [putChild, hname, hname', Compound.get?_insert, Ne.symm hne]
                · simp [putChild, hname, hname']
          | index position =>
              cases hname : (Compound.get? entries name).isSome <;> simp [putChild, hname]
      | index position =>
          cases step' with
          | key name =>
              cases hname : (Compound.get? entries name).isSome <;> simp [putChild, hname]
          | index position' => rfl
  | list items =>
      cases step with
      | key name => cases step' <;> rfl
      | index position =>
          cases step' with
          | key name => rfl
          | index position' =>
              have hne : position ≠ position' := fun heq => h (congrArg Step.index heq)
              simp only [putChild, List.set_comm new new' hne]
  | scalar s => rfl

/-- The later of two writes at a location counts. -/
theorem put_put_self (value first second : Value) (address : Address) :
    (value.put address first).put address second = value.put address second := by
  induction address generalizing value with
  | nil => simp
  | cons step rest ih =>
      cases hchild : value.child? step with
      | none => simp [put, hchild]
      | some child => simp [put, hchild, child?_putChild_self, putChild_putChild_self, ih]

/-- Writes at addresses that part ways can be done in either order. -/
theorem put_comm (value new new' : Value) {first second : Address}
    (h : Address.Disjoint first second) :
    (value.put first new).put second new' = (value.put second new').put first new := by
  induction first generalizing value second with
  | nil => exact absurd List.nil_prefix h.1
  | cons step first ih =>
      cases second with
      | nil => exact absurd List.nil_prefix h.2
      | cons step' second =>
          by_cases hstep : step = step'
          · subst hstep
            have hrest : Address.Disjoint first second :=
              (@Address.disjoint_append_left_iff [step] first second).mp h
            cases hchild : value.child? step with
            | none => simp [put, hchild]
            | some child =>
                simp [put, hchild, child?_putChild_self, putChild_putChild_self, ih child hrest]
          · cases hchild : value.child? step with
            | none =>
                cases hchild' : value.child? step' with
                | none => simp [put, hchild, hchild']
                | some child' =>
                    simp [put, hchild, hchild', child?_putChild_of_ne _ _ (Ne.symm hstep)]
            | some child =>
                cases hchild' : value.child? step' with
                | none => simp [put, hchild, hchild', child?_putChild_of_ne _ _ hstep]
                | some child' =>
                    simp [put, hchild, hchild', child?_putChild_of_ne _ _ hstep,
                      child?_putChild_of_ne _ _ (Ne.symm hstep), putChild_comm value hstep]

/-! ## Sites -/

/-- The addresses part from each other, and there is a value at each. -/
structure Sites (value : Value) (addresses : List Address) : Prop where
  apart : addresses.Pairwise Address.Disjoint
  there : ∀ a ∈ addresses, ∃ inner, value.get? a = some inner

theorem sites_singleton {value inner : Value} {address : Address}
    (h : value.get? address = some inner) : value.Sites [address] :=
  ⟨List.pairwise_singleton _ _, List.forall_mem_singleton.mpr ⟨inner, h⟩⟩

/-- A write at the first site leaves the others. -/
theorem Sites.put {root : Value} {address : Address} {rest : List Address}
    (h : root.Sites (address :: rest)) (new : Value) : (root.put address new).Sites rest := by
  obtain ⟨haway, hapart⟩ := List.pairwise_cons.mp h.apart
  refine ⟨hapart, fun b hb => ?_⟩
  rw [get?_put_disjoint root new (haway b hb)]
  exact h.there b (List.mem_cons_of_mem _ hb)

/-! ## Searches below a location -/

/-- The addresses that a search finds below a location. -/
def searchAt (value : Value) (find : Value → List Address) (address : Address) : List Address :=
  ((value.get? address).elim [] find).map (address ++ ·)

theorem searchAt_of_get? {value inner : Value} {address : Address} (find : Value → List Address)
    (h : value.get? address = some inner) :
    value.searchAt find address = (find inner).map (address ++ ·) := by
  rw [searchAt, h, Option.elim_some]

theorem searchAt_congr {first second : Value} {address : Address} (find : Value → List Address)
    (h : first.get? address = second.get? address) :
    first.searchAt find address = second.searchAt find address := by
  rw [searchAt, searchAt, h]

theorem mem_searchAt {value : Value} {find : Value → List Address} {start address : Address} :
    address ∈ value.searchAt find start ↔ ∃ inner, value.get? start = some inner
      ∧ ∃ below ∈ find inner, address = start ++ below := by
  rw [searchAt, List.mem_map]
  cases value.get? start with
  | none => simp
  | some inner => simp [eq_comm]

/-- A search below related addresses finds related addresses. -/
theorem pairwise_searchAt {r : Address → Address → Prop} (hr : Address.Carries r) {value : Value}
    {find : Value → List Address} {starts : List Address} (hstarts : starts.Pairwise r)
    (hfind : ∀ inner, (find inner).Pairwise r) :
    (starts.flatMap (value.searchAt find)).Pairwise r := by
  have hplaces : (starts.map id).Pairwise r := by rwa [List.map_id]
  refine hr.pairwise_flatMap hplaces fun start _ => ?_
  cases value.get? start with
  | none => exact List.Pairwise.nil
  | some inner => exact hfind inner

/-! ## Edits of many locations -/

/-- A write apart from all edited locations can be done before or after the edits. -/
theorem editEach_put {m : Type → Type} [Monad m] [LawfulMonad m] {α : Type}
    (edit : Value → m (Value × α)) {address : Address} (new : Value) {addresses : List Address} :
    ∀ (root : Value), (∀ b ∈ addresses, Address.Disjoint address b) →
      editEach edit addresses (root.put address new)
        = (fun result => (result.1.put address new, result.2)) <$> editEach edit addresses root := by
  induction addresses with
  | nil => simp [editEach]
  | cons b rest ih =>
      intro root haway
      obtain ⟨hb, hrest⟩ := List.forall_mem_cons.mp haway
      have hsame := get?_put_disjoint root new hb
      cases hget : root.get? b with
      | none => simp [editEach, hsame, hget, ih root hrest]
      | some old =>
          have hothers : ∀ edited, editEach edit rest ((root.put address new).put b edited)
              = (fun result => (result.1.put address new, result.2))
                  <$> editEach edit rest (root.put b edited) := by
            intro edited
            rw [put_comm root new edited hb, ih (root.put b edited) hrest]
          simp [editEach, hsame, hget, hothers]

section

variable {σ α : Type} {edit : Value → StateM σ (Value × α)}

theorem run_editEach_cons {root old : Value} {address : Address} (rest : List Address) (s : σ)
    (h : root.get? address = some old) :
    (editEach edit (address :: rest) root).run s
      = let first := (edit old).run s
        let others := (editEach edit rest (root.put address first.1.1)).run first.2
        ((others.1.1, (address, first.1.2) :: others.1.2), others.2) := by
  rw [editEach, h]
  rfl

theorem run_editEach_cons_none {root : Value} {address : Address} (rest : List Address) (s : σ)
    (h : root.get? address = none) :
    (editEach edit (address :: rest) root).run s = (editEach edit rest root).run s := by
  rw [editEach, h]

/-- What every single edit keeps is kept by the loop. -/
theorem editEach_keeps {keeps : Value → Prop} {addresses : List Address}
    (hstep : ∀ tree, keeps tree → ∀ a ∈ addresses, ∀ old, tree.get? a = some old → ∀ s,
      keeps (tree.put a ((edit old).run s).1.1))
    {root : Value} (h : keeps root) (s : σ) :
    keeps ((editEach edit addresses root).run s).1.1 := by
  induction addresses generalizing root s with
  | nil => exact h
  | cons address rest ih =>
      have hrest : ∀ tree, keeps tree → ∀ a ∈ rest, ∀ old, tree.get? a = some old → ∀ s,
          keeps (tree.put a ((edit old).run s).1.1) :=
        fun tree ht a ha => hstep tree ht a (List.mem_cons_of_mem _ ha)
      cases hget : root.get? address with
      | none =>
          rw [run_editEach_cons_none rest s hget]
          exact ih hrest h s
      | some old =>
          rw [run_editEach_cons rest s hget]
          exact ih hrest (hstep root h address (List.mem_cons_self ..) old hget s) _

/-- Edits that change no value change no tree. -/
theorem editEach_of_unchanged {good : σ → Prop} {answer : Address → α}
    {addresses : List Address} {root : Value}
    (h : ∀ a ∈ addresses, ∃ old, root.get? a = some old ∧ ∀ s, good s →
      ((edit old).run s).1 = (old, answer a) ∧ good ((edit old).run s).2)
    (s : σ) (hs : good s) :
    ((editEach edit addresses root).run s).1 = (root, addresses.map fun a => (a, answer a))
      ∧ good ((editEach edit addresses root).run s).2 := by
  induction addresses generalizing s with
  | nil => exact ⟨rfl, hs⟩
  | cons address rest ih =>
      obtain ⟨⟨old, hget, hedit⟩, hrest⟩ := List.forall_mem_cons.mp h
      obtain ⟨hsame, hgood⟩ := hedit s hs
      obtain ⟨hothers, hgood'⟩ := ih hrest ((edit old).run s).2 hgood
      rw [run_editEach_cons rest s hget]
      simp only [hsame, put_get? hget, hothers]
      exact ⟨rfl, hgood'⟩

end

/-- The values at some addresses are changed, each with an answer, and nothing else
is. -/
structure EditedEach {α : Type} (change : Value → Value → α → Prop) (addresses : List Address)
    (before after : Value) (answers : List (Address × α)) : Prop where
  /-- There is an answer for every address. -/
  places : answers.map Prod.fst = addresses
  /-- At each address the old value, the new one and the answer fit. -/
  each : ∀ answer ∈ answers, ∃ old new, before.get? answer.1 = some old
    ∧ after.get? answer.1 = some new ∧ change old new answer.2
  /-- Apart from the addresses whose values change, nothing does. -/
  frame : ∀ a, (∀ b ∈ addresses, Address.Disjoint b a ∨ after.get? b = before.get? b) →
    after.get? a = before.get? a
  /-- Above the addresses no layout changes. -/
  layout : ∀ a, (∀ b ∈ addresses, ¬b <+: a) →
    (after.get? a).map Value.layout = (before.get? a).map Value.layout

theorem EditedEach.nil {α : Type} (change : Value → Value → α → Prop) (root : Value) :
    EditedEach change [] root root [] :=
  ⟨rfl, nofun, fun _ _ => rfl, fun _ _ => rfl⟩

/-- One more edit comes before others, at an address that parts from theirs. -/
theorem EditedEach.cons {α : Type} {change : Value → Value → α → Prop} {address : Address}
    {rest : List Address} {root result old new : Value} {answer : α} {answers : List (Address × α)}
    (hget : root.get? address = some old) (haway : ∀ b ∈ rest, Address.Disjoint address b)
    (hchange : change old new answer)
    (h : EditedEach change rest (root.put address new) result answers) :
    EditedEach change (address :: rest) root result ((address, answer) :: answers) := by
  -- The other edits find what was there before the first one.
  have hsame : ∀ b ∈ rest, (root.put address new).get? b = root.get? b :=
    fun b hb => get?_put_disjoint root new (haway b hb)
  have hnew : result.get? address = some new := by
    rw [h.frame address fun b hb => .inl (haway b hb).symm]
    exact get?_put_self new hget
  refine ⟨?_, ?_, ?_, ?_⟩
  · rw [List.map_cons, h.places]
  · intro found hfound
    rcases List.mem_cons.mp hfound with rfl | hfound
    · exact ⟨old, new, hget, hnew, hchange⟩
    · have hb : found.1 ∈ rest := by
        rw [← h.places]
        exact List.mem_map_of_mem hfound
      rw [← hsame found.1 hb]
      exact h.each found hfound
  · intro a ha
    have hothers : result.get? a = (root.put address new).get? a := by
      refine h.frame a fun b hb => ?_
      rw [hsame b hb]
      exact ha b (List.mem_cons_of_mem _ hb)
    rw [hothers]
    rcases ha address (List.mem_cons_self ..) with haway | hunchanged
    · exact get?_put_disjoint root new haway
    · -- The first edit writes the value that is there already.
      rw [hnew] at hunchanged
      rw [put_get? hunchanged.symm]
  · intro a ha
    rw [h.layout a fun b hb => ha b (List.mem_cons_of_mem _ hb)]
    exact map_layout_get?_put root new (ha address (List.mem_cons_self ..))

/-- At addresses that part from each other the loop does what each edit does
alone. -/
theorem editEach_apart {σ α : Type} {edit : Value → StateM σ (Value × α)} {good : σ → Prop}
    {change : Value → Value → α → Prop} {addresses : List Address} {root : Value}
    (hapart : addresses.Pairwise Address.Disjoint)
    (hstep : ∀ a ∈ addresses, ∃ old, root.get? a = some old ∧ ∀ s, good s →
      change old ((edit old).run s).1.1 ((edit old).run s).1.2 ∧ good ((edit old).run s).2)
    (s : σ) (hs : good s) :
    EditedEach change addresses root ((editEach edit addresses root).run s).1.1
        ((editEach edit addresses root).run s).1.2
      ∧ good ((editEach edit addresses root).run s).2 := by
  induction addresses generalizing root s with
  | nil => exact ⟨.nil change root, hs⟩
  | cons address rest ih =>
      obtain ⟨haway, hapart⟩ := List.pairwise_cons.mp hapart
      obtain ⟨old, hget, hedit⟩ := hstep address (List.mem_cons_self ..)
      obtain ⟨hchange, hgood⟩ := hedit s hs
      rw [run_editEach_cons rest s hget]
      generalize (edit old).run s = first at hchange hgood
      obtain ⟨⟨new, answer⟩, s₁⟩ := first
      dsimp only at hchange hgood ⊢
      have hrest : ∀ b ∈ rest, ∃ old, (root.put address new).get? b = some old ∧ ∀ s, good s →
          change old ((edit old).run s).1.1 ((edit old).run s).1.2
            ∧ good ((edit old).run s).2 := by
        intro b hb
        rw [get?_put_disjoint root new (haway b hb)]
        exact hstep b (List.mem_cons_of_mem _ hb)
      obtain ⟨hedited, hgood'⟩ := ih hapart hrest s₁ hgood
      exact ⟨hedited.cons hget haway hchange, hgood'⟩

/-- An edit without a state is an edit that keeps one. -/
theorem run_editEach_pure {σ α : Type} (edit : Value → Value × α) (addresses : List Address)
    (root : Value) (s : σ) :
    (editEach (fun value => (pure (edit value) : StateM σ (Value × α))) addresses root).run s
      = (Id.run (editEach (fun value => pure (edit value)) addresses root), s) := by
  induction addresses generalizing root with
  | nil => rfl
  | cons address rest ih =>
      cases hget : root.get? address with
      | none => rw [run_editEach_cons_none rest s hget, ih, editEach, hget]
      | some old =>
          have hfirst : (pure (edit old) : StateM σ (Value × α)).run s = (edit old, s) := rfl
          rw [run_editEach_cons rest s hget, hfirst]
          dsimp only
          rw [ih, editEach, hget]
          rfl

/-- Edits without a state, at addresses that part from each other. -/
theorem editEach_pure {α : Type} (edit : Value → Value × α) {addresses : List Address}
    {root : Value} (hsites : root.Sites addresses) :
    EditedEach (fun old new answer => edit old = (new, answer)) addresses root
      (Id.run (editEach (fun value => pure (edit value)) addresses root)).1
      (Id.run (editEach (fun value => pure (edit value)) addresses root)).2 := by
  have hstep : ∀ a ∈ addresses, ∃ old, root.get? a = some old ∧ ∀ s : Unit, True →
      edit old = ((pure (edit old) : StateM Unit (Value × α)).run s).1 ∧ True := by
    intro a ha
    obtain ⟨old, hold⟩ := hsites.there a ha
    exact ⟨old, hold, fun _ _ => ⟨rfl, trivial⟩⟩
  have hedited := (@editEach_apart Unit α (fun value => pure (edit value)) (fun _ => True)
    (fun old new answer => edit old = (new, answer)) addresses root hsites.apart hstep ()
    trivial).1
  rwa [run_editEach_pure] at hedited

end Value

end TreeQuery
