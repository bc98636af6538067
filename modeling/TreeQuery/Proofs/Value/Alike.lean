import Mathlib.Data.List.Forall2
import Mathlib.Data.List.Perm.Subperm
import TreeQuery.Proofs.Value.Matching

/-!
# Trees that are alike

Two trees are the same when their keys are distinct and they are equal, so that they can
differ in the order of keys and in the sign of a zero (`Value.Same`).  A tree with a
missing number is the same as none.

`Value.Alike` says this of the trees step by step: at every step both have a child, or
neither has, and the children are alike.  Being the same and being alike are one thing
(`alike_iff_same`).  From steps it is plain that being alike is symmetric and transitive,
and that whatever reads or writes children respects it.  So does equality itself
(`Alike.equal_congr`), and no pattern tells trees apart that are alike
(`Alike.accepts_congr`).
-/

namespace TreeQuery

/-! ## Leaves -/

theorem Binary64.equal_symm {x y : Binary64} (h : x.equal y = true) : y.equal x = true := by
  cases x <;> cases y <;> simp only [Binary64.equal, Bool.false_eq_true] at h ⊢
  · rw [beq_iff_eq] at h ⊢
    exact h.symm
  · simp only [Bool.and_eq_true, Bool.or_eq_true, beq_iff_eq] at h ⊢
    grind

theorem Binary64.equal_trans {x y z : Binary64} (h : x.equal y = true) (h' : y.equal z = true) :
    x.equal z = true := by
  cases x <;> cases y <;> cases z <;> simp only [Binary64.equal, Bool.false_eq_true] at h h' ⊢
  · rw [beq_iff_eq] at h h' ⊢
    exact h.trans h'
  · simp only [Bool.and_eq_true, Bool.or_eq_true, beq_iff_eq] at h h' ⊢
    grind

theorem Scalar.equal_symm {s t : Scalar} (h : s.equal t = true) : t.equal s = true := by
  cases s <;> cases t <;> simp only [Scalar.equal, Bool.false_eq_true, beq_iff_eq] at h ⊢
  · exact h.symm
  · exact h.symm
  · exact Binary64.equal_symm h
  · exact h.symm

theorem Scalar.equal_trans {s t u : Scalar} (h : s.equal t = true) (h' : t.equal u = true) :
    s.equal u = true := by
  cases s <;> cases t <;> cases u <;>
    simp only [Scalar.equal, Bool.false_eq_true, beq_iff_eq] at h h' ⊢
  · exact h.trans h'
  · exact h.trans h'
  · exact Binary64.equal_trans h h'
  · exact h.trans h'

theorem Scalar.kind_of_equal {s t : Scalar} (h : s.equal t = true) : s.kind = t.kind := by
  cases s <;> cases t <;> simp only [Scalar.equal, Bool.false_eq_true] at h <;> rfl

/-! ## Options and lists -/

section

variable {α β γ : Type} {r : α → β → Prop}

theorem optionRel_iff {a : Option α} {b : Option β} :
    Option.Rel r a b ↔ a.isSome = b.isSome ∧ ∀ x y, a = some x → b = some y → r x y := by
  constructor
  · intro h
    cases h with
    | none => simp
    | some hxy => simpa using hxy
  · rintro ⟨hsome, hboth⟩
    cases a with
    | none =>
        cases b with
        | none => exact .none
        | some y => cases hsome
    | some x =>
        cases b with
        | none => cases hsome
        | some y => exact .some (hboth x y rfl rfl)

theorem optionRel_cases {a : Option α} {b : Option β} (h : Option.Rel r a b) :
    a = none ∧ b = none ∨ ∃ x y, a = some x ∧ b = some y ∧ r x y := by
  cases h with
  | none => exact .inl ⟨rfl, rfl⟩
  | some hxy => exact .inr ⟨_, _, rfl, rfl, hxy⟩

theorem rel_getElem? {as : List α} {bs : List β} (h : List.Forall₂ r as bs) (position : Nat) :
    Option.Rel r as[position]? bs[position]? := by
  induction h generalizing position with
  | nil => exact .none
  | cons hfirst _ ih =>
      cases position with
      | zero => exact .some hfirst
      | succ position => exact ih position

theorem forall₂_of_rel_getElem? {as : List α} {bs : List β}
    (h : ∀ position : Nat, Option.Rel r as[position]? bs[position]?) : List.Forall₂ r as bs := by
  induction as generalizing bs with
  | nil =>
      cases bs with
      | nil => exact .nil
      | cons b bs => cases h 0
  | cons a as ih =>
      cases bs with
      | nil => cases h 0
      | cons b bs =>
          have hfirst : Option.Rel r (some a) (some b) := h 0
          cases hfirst with
          | some hfirst => exact .cons hfirst (ih fun position => h (position + 1))

theorem exists_of_mem_right {as : List α} {bs : List β} (h : List.Forall₂ r as bs) {b : β}
    (hb : b ∈ bs) : ∃ a ∈ as, r a b := by
  induction h with
  | nil => cases hb
  | cons hfirst _ ih =>
      obtain rfl | hmem := List.mem_cons.mp hb
      · exact ⟨_, List.mem_cons_self .., hfirst⟩
      · obtain ⟨a, ha, hr⟩ := ih hmem
        exact ⟨a, List.mem_cons_of_mem _ ha, hr⟩

theorem any_congr_of_rel {a : Option α} {b : Option β} {f : α → Bool} {g : β → Bool}
    (h : Option.Rel r a b) (hfg : ∀ x y, r x y → f x = g y) : a.any f = b.any g := by
  cases h with
  | none => rfl
  | some hxy => exact hfg _ _ hxy

theorem map_congr_of_forall₂ {as : List α} {bs : List β} {f : α → γ} {g : β → γ}
    (h : List.Forall₂ r as bs) (hfg : ∀ a b, r a b → f a = g b) : as.map f = bs.map g := by
  induction h with
  | nil => rfl
  | cons hfirst _ ih => rw [List.map_cons, List.map_cons, hfg _ _ hfirst, ih]

theorem any_congr_of_forall₂ {as : List α} {bs : List β} {f : α → Bool} {g : β → Bool}
    (h : List.Forall₂ r as bs) (hfg : ∀ a b, r a b → f a = g b) : as.any f = bs.any g := by
  have hmap := congrArg (List.any · id) (map_congr_of_forall₂ h hfg)
  simpa [List.any_map] using hmap

theorem countP_congr_of_forall₂ {as : List α} {bs : List β} {f : α → Bool} {g : β → Bool}
    (h : List.Forall₂ r as bs) (hfg : ∀ a b, r a b → f a = g b) : as.countP f = bs.countP g := by
  have hmap := congrArg (List.countP id) (map_congr_of_forall₂ h hfg)
  simpa [List.countP_map] using hmap

end

namespace Value

/-! ## Step by step -/

/-- What trees that are alike have in common apart from their children. -/
inductive Like : Value → Value → Prop where
  | compound {entries entries' : Compound} : (Compound.keys entries).Nodup →
      (Compound.keys entries').Nodup → Like (.compound entries) (.compound entries')
  | list {items items' : List Value} : Like (.list items) (.list items')
  | scalar {s t : Scalar} : s.equal t = true → Like (.scalar s) (.scalar t)

theorem Like.symm {first second : Value} (h : Like first second) : Like second first := by
  cases h with
  | compound hkeys hkeys' => exact .compound hkeys' hkeys
  | list => exact .list
  | scalar hequal => exact .scalar (Scalar.equal_symm hequal)

theorem Like.trans {first second third : Value} (h : Like first second)
    (h' : Like second third) : Like first third := by
  cases h with
  | compound hkeys =>
      cases h' with
      | compound _ hkeys' => exact .compound hkeys hkeys'
  | list =>
      cases h' with
      | list => exact .list
  | scalar hequal =>
      cases h' with
      | scalar hequal' => exact .scalar (Scalar.equal_trans hequal hequal')

/-- The trees have a child at the same steps, and their children are alike. -/
inductive Alike : Value → Value → Prop where
  | mk {first second : Value} : Like first second →
      (∀ step, (first.child? step).isSome = (second.child? step).isSome) →
      (∀ step child child', first.child? step = some child →
        second.child? step = some child' → Alike child child') →
      Alike first second

theorem Alike.like {first second : Value} (h : first.Alike second) : Like first second := by
  cases h with
  | mk hlike => exact hlike

/-- The children at a step are alike, or there are none. -/
theorem Alike.child? {first second : Value} (h : first.Alike second) (step : Step) :
    Option.Rel Alike (first.child? step) (second.child? step) := by
  cases h with
  | mk _ hsome hchildren => exact optionRel_iff.mpr ⟨hsome step, hchildren step⟩

theorem alike_of_children {first second : Value} (hlike : Like first second)
    (h : ∀ step, Option.Rel Alike (first.child? step) (second.child? step)) :
    first.Alike second :=
  .mk hlike (fun step => (optionRel_iff.mp (h step)).1) fun step => (optionRel_iff.mp (h step)).2

theorem Alike.symm {first second : Value} (h : first.Alike second) : second.Alike first := by
  induction h with
  | mk hlike hsome _ ih =>
      exact .mk hlike.symm (fun step => (hsome step).symm)
        fun step child child' hchild hchild' => ih step child' child hchild' hchild

theorem Alike.trans {first second third : Value} (h : first.Alike second)
    (h' : second.Alike third) : first.Alike third := by
  induction h generalizing third with
  | mk hlike hsome _ ih =>
      cases h' with
      | mk hlike' hsome' hchildren' =>
          refine .mk (hlike.trans hlike') (fun step => (hsome step).trans (hsome' step))
            fun step child child'' hchild hchild'' => ?_
          have hmiddle := hsome step
          rw [hchild, Option.isSome_some, eq_comm, Option.isSome_iff_exists] at hmiddle
          obtain ⟨child', hchild'⟩ := hmiddle
          exact ih step child child' hchild hchild'
            (hchildren' step child' child'' hchild' hchild'')

theorem Alike.kind {first second : Value} (h : first.Alike second) :
    first.kind = second.kind := by
  cases h.like with
  | compound => rfl
  | list => rfl
  | scalar hequal => exact Scalar.kind_of_equal hequal

/-! ## Compounds, lists and leaves -/

theorem alike_compound {entries entries' : Compound} :
    (compound entries).Alike (compound entries')
      ↔ (Compound.keys entries).Nodup ∧ (Compound.keys entries').Nodup
        ∧ ∀ name, Option.Rel Alike (Compound.get? entries name) (Compound.get? entries' name) := by
  constructor
  · intro h
    cases h.like with
    | compound hkeys hkeys' => exact ⟨hkeys, hkeys', fun name => h.child? (.key name)⟩
  · rintro ⟨hkeys, hkeys', hget⟩
    refine alike_of_children (.compound hkeys hkeys') fun step => ?_
    cases step with
    | key name => exact hget name
    | index position => exact .none

theorem alike_list {items items' : List Value} :
    (list items).Alike (list items') ↔ List.Forall₂ Alike items items' := by
  constructor
  · exact fun h => forall₂_of_rel_getElem? fun position => h.child? (.index position)
  · intro h
    refine alike_of_children .list fun step => ?_
    cases step with
    | key name => exact .none
    | index position => exact rel_getElem? h position

theorem alike_scalar {s t : Scalar} (h : s.equal t = true) : (scalar s).Alike (scalar t) :=
  alike_of_children (.scalar h) fun step => by cases step <;> exact .none

/-! ## The same trees -/

/-- The keys of both trees are distinct, and the trees are equal. -/
structure Same (first second : Value) : Prop where
  /-- The keys of the first tree are distinct. -/
  left : first.Keyed
  /-- The keys of the second tree are distinct. -/
  right : second.Keyed
  /-- The trees are equal. -/
  equal : first.equal second = true

theorem equalItems_iff {first second : List Value} :
    equalItems first second = true
      ↔ List.Forall₂ (fun item item' => item.equal item' = true) first second := by
  induction first generalizing second with
  | nil => cases second <;> simp [equalItems]
  | cons item rest ih => cases second <;> simp [equalItems, ih]

/-- A compound has the keys of all entries that it has a value for. -/
theorem keys_subset_of_find {entries entries' : Compound} {r : String × Value → Value → Prop}
    (h : ∀ entry ∈ entries, ∃ found, Compound.get? entries' entry.1 = some found ∧ r entry found) :
    Compound.keys entries ⊆ Compound.keys entries' := by
  intro name hname
  obtain ⟨entry, hentry, rfl⟩ := List.mem_map.mp hname
  obtain ⟨found, hfound, -⟩ := h entry hentry
  exact Compound.get?_isSome_iff_mem_keys.mp (by rw [hfound]; rfl)

/-- Two compounds have the same keys when one of them has those of the other, and no
more entries. -/
theorem perm_keys_of_subset {entries entries' : Compound} (hkeys : (Compound.keys entries).Nodup)
    (hsubset : Compound.keys entries ⊆ Compound.keys entries')
    (hlength : entries'.length ≤ entries.length) :
    (Compound.keys entries).Perm (Compound.keys entries') := by
  refine (List.subperm_of_subset hkeys hsubset).perm_of_length_le ?_
  simpa [Compound.keys] using hlength

theorem isSome_get?_of_perm {entries entries' : Compound}
    (h : (Compound.keys entries).Perm (Compound.keys entries')) (name : String) :
    (Compound.get? entries name).isSome = (Compound.get? entries' name).isSome := by
  rw [Bool.eq_iff_iff, Compound.get?_isSome_iff_mem_keys, Compound.get?_isSome_iff_mem_keys]
  exact h.mem_iff

theorem Keyed.alike {first second : Value} (h : first.Keyed) (h' : second.Keyed)
    (hequal : first.equal second = true) : first.Alike second := by
  induction h generalizing second with
  | @compound entries hkeys hentries ih =>
      cases h' with
      | @compound entries' hkeys' hentries' =>
          rw [equal, Bool.and_eq_true, beq_iff_eq, equalEntries_iff] at hequal
          obtain ⟨hlength, hall⟩ := hequal
          have hsame := isSome_get?_of_perm
            (perm_keys_of_subset hkeys (keys_subset_of_find hall) (Nat.le_of_eq hlength.symm))
          refine .mk (.compound hkeys hkeys') (fun step => ?_)
            fun step child child' hchild hchild' => ?_
          · cases step with
            | key name => exact hsame name
            | index position => rfl
          · cases step with
            | key name =>
                have hentry := mem_of_get? hchild
                obtain ⟨found, hfound, hfoundEqual⟩ := hall _ hentry
                obtain rfl := Option.some.inj (hfound.symm.trans hchild')
                exact ih _ hentry (hentries' _ (mem_of_get? hchild')) hfoundEqual
            | index position => cases hchild
      | list => cases hequal
      | scalar => cases hequal
  | @list items hitems ih =>
      cases h' with
      | compound => cases hequal
      | @list items' hitems' =>
          rw [equal, equalItems_iff] at hequal
          rw [alike_list]
          refine List.forall₂_iff_get.mpr ⟨hequal.length_eq, fun position hlt hlt' => ?_⟩
          exact ih _ (List.get_mem items ⟨position, hlt⟩)
            (hitems' _ (List.get_mem items' ⟨position, hlt'⟩)) (hequal.get hlt hlt')
      | scalar => cases hequal
  | scalar =>
      cases h' with
      | compound => cases hequal
      | list => cases hequal
      | scalar => exact alike_scalar hequal

theorem Alike.same {first second : Value} (h : first.Alike second) : first.Same second := by
  induction h with
  | @mk first second hlike hsome _ ih =>
      cases hlike with
      | @compound entries entries' hkeys hkeys' =>
          have hget : ∀ name, (Compound.get? entries name).isSome
              = (Compound.get? entries' name).isSome := fun name => hsome (.key name)
          have hperm : (Compound.keys entries).Perm (Compound.keys entries') := by
            refine (List.perm_ext_iff_of_nodup hkeys hkeys').mpr fun name => ?_
            rw [← Compound.get?_isSome_iff_mem_keys, ← Compound.get?_isSome_iff_mem_keys, hget]
          have hfind : ∀ entry ∈ entries, ∃ found,
              Compound.get? entries' entry.1 = some found ∧ entry.2.Same found := by
            intro entry hentry
            have hentryGet := get?_of_mem hkeys hentry
            obtain ⟨found, hfound⟩ := Option.isSome_iff_exists.mp
              ((hget entry.1).symm.trans (by rw [hentryGet]; rfl))
            exact ⟨found, hfound, ih (.key entry.1) _ _ hentryGet hfound⟩
          refine ⟨.compound hkeys fun entry hentry => ?_, .compound hkeys' fun entry hentry => ?_,
            ?_⟩
          · obtain ⟨found, -, hsame⟩ := hfind entry hentry
            exact hsame.left
          · have hentryGet := get?_of_mem hkeys' hentry
            obtain ⟨found, hfound⟩ := Option.isSome_iff_exists.mp
              ((hget entry.1).trans (by rw [hentryGet]; rfl))
            exact (ih (.key entry.1) _ _ hfound hentryGet).right
          · have hlength := hperm.length_eq
            rw [Compound.keys, Compound.keys, List.length_map, List.length_map] at hlength
            rw [equal, hlength, beq_self_eq_true, Bool.true_and, equalEntries_iff]
            intro entry hentry
            obtain ⟨found, hfound, hsame⟩ := hfind entry hentry
            exact ⟨found, hfound, hsame.equal⟩
      | @list items items' =>
          have hitems : List.Forall₂ Same items items' := by
            refine forall₂_of_rel_getElem? fun position => optionRel_iff.mpr ?_
            exact ⟨hsome (.index position), ih (.index position)⟩
          have hleft := hitems.imp fun _ _ hsame => And.intro hsame.left hsame
          have hright : List.Forall₂ (fun item' item => item'.Keyed ∧ item.Same item')
              items' items := List.Forall₂.flip (hitems.imp fun _ _ hsame => ⟨hsame.right, hsame⟩)
          refine ⟨.list ((List.forall₂_and_left _ _).mp hleft).1,
            .list ((List.forall₂_and_left _ _).mp hright).1, ?_⟩
          rw [equal, equalItems_iff]
          exact hitems.imp fun _ _ hsame => hsame.equal
      | scalar hequal => exact ⟨.scalar, .scalar, hequal⟩

/-- Trees are alike exactly when they are the same. -/
theorem alike_iff_same {first second : Value} : first.Alike second ↔ first.Same second :=
  ⟨Alike.same, fun h => h.left.alike h.right h.equal⟩

/-- A tree with distinct keys and no missing number is alike itself. -/
theorem alike_self {value : Value} (hkeyed : value.Keyed) (hnumbers : value.isNaNFree = true) :
    value.Alike value :=
  alike_iff_same.mpr ⟨hkeyed, hkeyed, equal_self hkeyed hnumbers⟩

/-! ## Reading, matching and comparing -/

/-- The values at an address are alike, or there are none. -/
theorem Alike.get? {first second : Value} (h : first.Alike second) (address : Address) :
    Option.Rel Alike (first.get? address) (second.get? address) := by
  induction address generalizing first second with
  | nil =>
      rw [get?_nil, get?_nil]
      exact .some h
  | cons step rest ih =>
      simp only [Value.get?]
      obtain ⟨hfirst, hsecond⟩ | ⟨child, child', hfirst, hsecond, hchild⟩ :=
        optionRel_cases (h.child? step)
      · rw [hfirst, hsecond]
        exact .none
      · rw [hfirst, hsecond]
        exact ih hchild

theorem Alike.extends {first second : Value} (h : first.Alike second) :
    second.Extends first := by
  induction h with
  | mk hlike hsome _ ih =>
      cases hlike with
      | compound =>
          refine extends_compound fun name value hvalue => ?_
          obtain ⟨value', hvalue'⟩ := Option.isSome_iff_exists.mp
            ((hsome (.key name)).symm.trans (Option.isSome_iff_exists.mpr ⟨value, hvalue⟩))
          exact ⟨value', hvalue', ih (.key name) value value' hvalue hvalue'⟩
      | list =>
          refine extends_list fun position value hvalue => ?_
          obtain ⟨value', hvalue'⟩ := Option.isSome_iff_exists.mp
            ((hsome (.index position)).symm.trans (Option.isSome_iff_exists.mpr ⟨value, hvalue⟩))
          exact ⟨value', hvalue', ih (.index position) value value' hvalue hvalue'⟩
      | scalar hequal =>
          intro pattern hpattern
          cases pattern with
          | compound entries => cases hpattern
          | list items => cases hpattern
          | scalar s => exact Scalar.equal_trans hpattern hequal

/-- No pattern tells them apart. -/
theorem Alike.accepts_congr {first second : Value} (h : first.Alike second)
    (pattern : Compound) : pattern.accepts first = pattern.accepts second := by
  rw [Bool.eq_iff_iff]
  exact ⟨h.extends (.compound pattern), h.symm.extends (.compound pattern)⟩

/-- Equal values that are alike to some values are alike to each other. -/
theorem Alike.of_equal {first first' second second' : Value} (h : first.Alike first')
    (h' : second.Alike second') (hequal : first.equal second = true) : first.Alike second :=
  h.same.left.alike h'.same.left hequal

/-- Equality of trees respects it. -/
theorem Alike.equal_congr {first first' second second' : Value} (h : first.Alike first')
    (h' : second.Alike second') : first.equal second = first'.equal second' := by
  have hone : ∀ {a a' b b' : Value}, a.Alike a' → b.Alike b' → a.equal b = true →
      a'.equal b' = true := by
    intro a a' b b' ha hb hequal
    have hab := ha.of_equal hb hequal
    exact ((ha.symm.trans hab).trans hb).same.equal
  rw [Bool.eq_iff_iff]
  exact ⟨hone h h', hone h.symm h'.symm⟩

/-! ## Writing -/

theorem Alike.insert {entries entries' : Compound} {value value' : Value}
    (h : (compound entries).Alike (compound entries')) (name : String)
    (hvalue : value.Alike value') :
    (compound (Compound.insert entries name value)).Alike
      (compound (Compound.insert entries' name value')) := by
  obtain ⟨hkeys, hkeys', hget⟩ := alike_compound.mp h
  refine alike_compound.mpr ⟨Compound.nodup_keys_insert hkeys name value,
    Compound.nodup_keys_insert hkeys' name value', fun other => ?_⟩
  rw [Compound.get?_insert, Compound.get?_insert]
  split
  · exact .some hvalue
  · exact hget other

theorem forall₂_set {items items' : List Value} {value value' : Value}
    (h : List.Forall₂ Alike items items') (position : Nat) (hvalue : value.Alike value') :
    List.Forall₂ Alike (items.set position value) (items'.set position value') := by
  induction h generalizing position with
  | nil => exact .nil
  | cons hfirst hrest ih =>
      cases position with
      | zero => exact .cons hvalue hrest
      | succ position => exact .cons hfirst (ih position)

theorem Alike.putChild {first second new new' : Value} (h : first.Alike second) (step : Step)
    (hnew : new.Alike new') : (first.putChild step new).Alike (second.putChild step new') := by
  cases h.like with
  | compound =>
      cases step with
      | key name =>
          have hsome := (optionRel_iff.mp (h.child? (.key name))).1
          simp only [Value.child?] at hsome
          simp only [Value.putChild, hsome]
          split
          · exact h.insert name hnew
          · exact h
      | index position => exact h
  | list =>
      cases step with
      | key name => exact h
      | index position => exact alike_list.mpr (forall₂_set (alike_list.mp h) position hnew)
  | scalar => cases step <;> exact h

/-- Writing to an address respects it. -/
theorem Alike.put {first second new new' : Value} (h : first.Alike second) (address : Address)
    (hnew : new.Alike new') : (first.put address new).Alike (second.put address new') := by
  induction address generalizing first second with
  | nil =>
      rw [put_nil, put_nil]
      exact hnew
  | cons step rest ih =>
      rw [Value.put, Value.put]
      obtain ⟨hfirst, hsecond⟩ | ⟨child, child', hfirst, hsecond, hchild⟩ :=
        optionRel_cases (h.child? step)
      · rw [hfirst, hsecond]
        exact h
      · rw [hfirst, hsecond]
        exact h.putChild step (ih hchild)

end Value

end TreeQuery
