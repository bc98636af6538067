import TreeQuery.Proofs.Path.Alike
import TreeQuery.Proofs.Path.Write

/-!
# Two ways to write a value

A value can be written to a path at once.  Or the locations of the path are ensured first,
with copies of the value for what is missing, and then the value is put to each of them
(`Value.putEach`).  Both ways fail together, since both begin by ensuring the parents.

If they succeed, they leave trees that are alike, unless a pattern decides in the last
selector.  The trees can differ, because writing keeps an old value that equals the new
one.  In a single value this is seen by cases on the selector
(`Selector.write_alike_putEach`).  The two loops over the parents differ in their order:
one finishes a parent before it goes on to the next one, while the other ensures all
parents before it overwrites.  A write below one parent can be moved past the ensuring of
the others (`Value.editEach_putEach`), so the loops can be compared parent by parent.
-/

namespace TreeQuery

namespace Value

/-! ## One value at many addresses -/

/-- Put one value to some addresses in turn. -/
def putEach (value : Value) (addresses : List Address) (tree : Value) : Value :=
  addresses.foldl (fun tree address => tree.put address value) tree

theorem putEach_cons (value : Value) (address : Address) (rest : List Address) (tree : Value) :
    putEach value (address :: rest) tree = putEach value rest (tree.put address value) := rfl

theorem putEach_append (value : Value) (first second : List Address) (tree : Value) :
    putEach value (first ++ second) tree = putEach value second (putEach value first tree) :=
  List.foldl_append

/-- To put a value below a location is to put it in the value there. -/
theorem putEach_below (value : Value) {tree inner : Value} {place : Address}
    (below : List Address) (h : tree.get? place = some inner) :
    putEach value (below.map (place ++ ·)) tree
      = tree.put place (putEach value below inner) := by
  induction below generalizing tree inner with
  | nil => exact (put_get? h).symm
  | cons address rest ih =>
      have hput : (tree.put (place ++ address) value).get? place
          = some (inner.put address value) := by
        rw [put_append address value h]
        exact get?_put_self _ h
      rw [List.map_cons, putEach_cons, putEach_cons, ih hput, put_append address value h,
        put_put_self]

/-- To put a value apart from all edited locations can be done before or after the edits. -/
theorem editEach_putEach {m : Type → Type} [Monad m] [LawfulMonad m] {α : Type}
    (edit : Value → m (Value × α)) (value : Value) {away addresses : List Address}
    (haway : ∀ a ∈ away, ∀ b ∈ addresses, Address.Disjoint a b) (root : Value) :
    editEach edit addresses (putEach value away root)
      = (fun result => (putEach value away result.1, result.2))
          <$> editEach edit addresses root := by
  induction away generalizing root with
  | nil => simp [putEach]
  | cons a rest ih =>
      obtain ⟨ha, hrest⟩ := List.forall_mem_cons.mp haway
      rw [putEach_cons, ih hrest, editEach_put edit value root ha, Functor.map_map]
      rfl

/-! ## One value at many positions -/

theorem putEach_items (value : Value) (positions : List Nat) (items : List Value) :
    putEach value (positions.map fun position => [.index position]) (.list items)
      = .list (positions.foldl (fun items position => items.set position value) items) := by
  induction positions generalizing items with
  | nil => rfl
  | cons position rest ih =>
      have hput : (Value.list items).put [.index position] value
          = .list (items.set position value) := by
        cases hitem : items[position]? with
        | none =>
            have hout := List.getElem?_eq_none_iff.mp hitem
            simp [put, child?, hitem, List.set_eq_of_length_le hout]
        | some old => simp [put, child?, hitem, putChild]
      rw [List.map_cons, putEach_cons, hput, ih, List.foldl_cons]

theorem getElem?_foldl_set (value : Value) (positions : List Nat) (items : List Value)
    (place : Nat) :
    (positions.foldl (fun items position => items.set position value) items)[place]?
      = if place ∈ positions then items[place]?.map fun _ => value else items[place]? := by
  induction positions generalizing items with
  | nil => simp
  | cons position rest ih =>
      rw [List.foldl_cons, ih, List.getElem?_set]
      by_cases hplace : position = place
      · subst hplace
        cases hitem : items[position]? with
        | none =>
            have hout := List.getElem?_eq_none_iff.mp hitem
            simp [Nat.not_lt.mpr hout]
        | some old =>
            obtain ⟨hlt, -⟩ := List.getElem?_eq_some_iff.mp hitem
            simp [hlt]
      · simp [hplace, Ne.symm hplace]

/-- Every element of a list is overwritten. -/
theorem putEach_elements (value : Value) (items : List Value) :
    putEach value (Selector.elements.locate (.list items)) (.list items)
      = .list (List.replicate items.length value) := by
  rw [Selector.locate, putEach_items]
  congr 1
  refine List.ext_getElem? fun place => ?_
  rw [getElem?_foldl_set, List.getElem?_replicate]
  by_cases hlt : place < items.length
  · have hitem := List.getElem?_eq_getElem hlt
    have hmem : place ∈ positionsFrom (fun _ => true) 0 items :=
      mem_positionsFrom.mpr ⟨place, _, hitem, rfl, (Nat.zero_add place).symm⟩
    rw [if_pos hmem, if_pos hlt, hitem, Option.map_some]
  · have hitem := List.getElem?_eq_none (Nat.not_lt.mp hlt)
    rw [if_neg hlt, hitem]
    split
    · rfl
    · rfl

end Value

namespace Selector

open Value (putEach putEach_elements)

variable {value old : Value} {s s' : Supply}

/-! ## In a single value -/

theorem overwrite_alike_new (hold : old.Alike old) (hvalue : value.Alike value) :
    (overwrite old value).1.Alike value := by
  rw [overwrite]
  split
  · next hequal => exact .of_equal hold hvalue hequal
  · exact hvalue

/-- To keep a key with an equal value is as good as to write the value. -/
theorem insert_alike_of_equal {entries : Compound} {name : String}
    (h : (Value.compound entries).Alike (.compound entries)) (hvalue : value.Alike value)
    (hequal : (Compound.get? entries name).any (·.equal value) = true) :
    (Value.compound entries).Alike (.compound (Compound.insert entries name value)) := by
  obtain ⟨found, hfound, hequal⟩ := (Option.any_eq_true _ _).mp hequal
  obtain ⟨hkeys, -, hget⟩ := Value.alike_compound.mp h
  refine Value.alike_compound.mpr ⟨hkeys, Compound.nodup_keys_insert hkeys name value,
    fun other => ?_⟩
  rw [Compound.get?_insert]
  split
  · next hname =>
    subst hname
    have hself := (optionRel_iff.mp (hget name)).2 found found hfound hfound
    rw [hfound]
    exact .some (.of_equal hself hvalue hequal)
  · exact hget other

/-- Ensuring takes one value at most from the supply. -/
theorem constant_ensure (selector : Selector) (old : Value) (hs : s.Constant value) :
    ((selector.ensure old).run s).2.Constant value := by
  unfold ensure
  split
  · split
    · exact hs
    · exact hs.rest
  · split
    · exact hs
    · exact hs
  · exact hs.rest
  · exact hs
  · exact hs

theorem write_child_alike (name : String) (entries : Compound)
    (hold : (Value.compound entries).Alike (.compound entries)) (hvalue : value.Alike value)
    (hs : s.Constant value) (hs' : s'.Constant value) :
    (((Selector.child name).write (.compound entries)).run s).1.1.Alike
      (putEach value (((Selector.child name).ensure (.compound entries)).run s').1.2
        (((Selector.child name).ensure (.compound entries)).run s').1.1) := by
  have hensured : putEach value (((Selector.child name).ensure (.compound entries)).run s').1.2
      (((Selector.child name).ensure (.compound entries)).run s').1.1
        = .compound (Compound.insert entries name value) := by
    rw [ensure]
    split
    · next hsome => exact Value.put_key value hsome
    · rw [hs'.run_next_bind]
      refine (Value.put_key value ?_).trans ?_
      · rw [Compound.get?_insert, if_pos rfl, Option.isSome_some]
      · rw [Compound.insert_insert_self]
  rw [hensured, write, hs.run_next_bind]
  split
  · next hequal => exact insert_alike_of_equal hold hvalue hequal
  · exact hold.insert name hvalue

theorem write_elements_alike (items : List Value)
    (hold : (Value.list items).Alike (.list items)) (hvalue : value.Alike value)
    (hs : s.Constant value) (hs' : s'.Constant value) :
    ((Selector.elements.write (.list items)).run s).1.1.Alike
      (putEach value ((Selector.elements.ensure (.list items)).run s').1.2
        ((Selector.elements.ensure (.list items)).run s').1.1) := by
  cases items with
  | nil =>
      rw [write, ensure, hs.run_next_bind, hs'.run_next_bind]
      exact Value.alike_list.mpr (.cons hvalue .nil)
  | cons item rest =>
      have hsettled : Selector.elements.Settled (.list (item :: rest)) := List.cons_ne_nil _ _
      rw [ensure_of_settled hsettled, putEach_elements]
      obtain ⟨hrun, -⟩ := refill_run hs (List.cons_ne_nil item rest)
      show (Value.list ((refill (item :: rest)).run s).1.1).Alike _
      rw [hrun, Value.alike_list]
      have hitems := Value.alike_list.mp hold
      generalize item :: rest = items at hitems
      dsimp only
      split
      · next hnone =>
        rw [List.countP_eq_zero] at hnone
        refine List.forall₂_iff_get.mpr ⟨by simp, fun position hlt hlt' => ?_⟩
        have hequal := hnone _ (List.getElem_mem hlt)
        simp only [List.get_eq_getElem, List.getElem_replicate]
        exact .of_equal (hitems.get hlt hlt) hvalue (by simpa using hequal)
      · exact List.forall₂_same.mpr fun item hitem => List.eq_of_mem_replicate hitem ▸ hvalue

theorem write_element_alike (index : Int64) (items : List Value)
    (hold : (Value.list items).Alike (.list items)) (hvalue : value.Alike value)
    (hs : s.Constant value) :
    (((Selector.element index).write (.list items)).run s).1.1.Alike
      (putEach value ((Selector.element index).locate (.list items)) (.list items)) := by
  rw [write, locate]
  cases hposition : resolveIndex index items.length with
  | none => exact hold
  | some position =>
      have hlt := resolveIndex_bound hposition
      have hitem : items[position]? = some items[position] := List.getElem?_eq_getElem hlt
      have hget : items.getD position value = items[position] := by
        rw [List.getD_eq_getElem?_getD, hitem, Option.getD_some]
      have hself := hold.child? (.index position)
      rw [Value.child?, hitem] at hself
      have hchild := (optionRel_iff.mp hself).2 _ _ rfl rfl
      dsimp only
      rw [hs.run_next_bind, hget]
      show (Value.list (items.set position (overwrite items[position] value).1)).Alike
        ((Value.list items).put [.index position] value)
      simp only [Value.put, Value.child?, hitem, Value.putChild]
      exact Value.alike_list.mpr (Value.forall₂_set (Value.alike_list.mp hold) position
        (overwrite_alike_new hchild hvalue))

/-- In one value, to write is to ensure what the selector picks and to put the value there. -/
theorem write_alike_putEach {selector : Selector} (hplain : selector.pattern? = none)
    (hold : old.Alike old) (hvalue : value.Alike value) (hs : s.Constant value)
    (hs' : s'.Constant value) :
    ((selector.write old).run s).1.1.Alike
      (putEach value ((selector.ensure old).run s').1.2 ((selector.ensure old).run s').1.1) := by
  cases selector with
  | child name =>
      cases old with
      | compound entries => exact write_child_alike name entries hold hvalue hs hs'
      | list items => exact hold
      | scalar leaf => exact hold
  | childMatching name pattern => cases hplain
  | rootMatching pattern => cases hplain
  | elements =>
      cases old with
      | compound entries => exact hold
      | list items => exact write_elements_alike items hold hvalue hs hs'
      | scalar leaf => exact hold
  | element index =>
      cases old with
      | compound entries => exact hold
      | list items => exact write_element_alike index items hold hvalue hs
      | scalar leaf => exact hold
  | elementsMatching pattern => cases hplain

end Selector

namespace Path

open Value (putEach putEach_append putEach_below editEach_putEach)

/-! ## Parent by parent -/

/-- In trees that are alike, writing below some parents leaves the same as ensuring below
all of them and then putting the value to what was found. -/
theorem editEach_write_alike {last : Selector} (hplain : last.pattern? = none) {value : Value}
    (hvalue : value.Alike value) {parents : List Address} :
    ∀ {root root' : Value} {s s' : Supply}, root.Alike root' → root'.Sites parents →
      s.Constant value → s'.Constant value →
        ((Value.editEach last.write parents root).run s).1.1.Alike
          (putEach value ((last.ensureEach parents root').run s').1.2
            ((last.ensureEach parents root').run s').1.1) := by
  induction parents with
  | nil => exact fun h _ _ _ => h
  | cons parent rest ih =>
      intro root root' s s' h hsites hs hs'
      obtain ⟨haway, -⟩ := List.pairwise_cons.mp hsites.apart
      obtain ⟨old', hold'⟩ := hsites.there parent (List.mem_cons_self ..)
      obtain ⟨-, hnone⟩ | ⟨old, old'', hold, hsame, halike⟩ := optionRel_cases (h.get? parent)
      · cases hold'.symm.trans hnone
      obtain rfl := Option.some.inj (hold'.symm.trans hsame)
      -- In this parent both ways agree, whatever the supplies have given so far.
      have hsupply : s.Alike s := ⟨rfl, fun number => by rw [hs number]; exact hvalue⟩
      have hwrite := (Selector.write_alike halike last s s hsupply).1.1
      have hparent := hwrite.trans
        (Selector.write_alike_putEach hplain (halike.symm.trans halike) hvalue hs hs')
      have hlast := (last.write_spec old hs).2
      have hlast' := last.constant_ensure old' hs'
      rw [run_ensureEach, Value.run_editEach_cons rest s hold,
        Value.run_editEach_cons rest s' hold']
      generalize (last.write old).run s = first at hparent hlast ⊢
      generalize (last.ensure old').run s' = second at hparent hlast' ⊢
      obtain ⟨⟨new, count⟩, s₁⟩ := first
      obtain ⟨⟨grown, picked⟩, s₂⟩ := second
      dsimp only at hparent hlast hlast' ⊢
      -- What is put below this parent is put before the others are ensured.
      have hbelow : ∀ a ∈ picked.map (parent ++ ·), ∀ b ∈ rest, Address.Disjoint a b := by
        intro a ha b hb
        obtain ⟨below, -, rfl⟩ := List.mem_map.mp ha
        exact (haway b hb).append_left below
      have hmoved := editEach_putEach last.ensure value hbelow (root'.put parent grown)
      rw [putEach_below value picked (Value.get?_put_self grown hold'), Value.put_put_self]
        at hmoved
      have hrun := congrArg (fun edit : Supplied (Value × List (Address × List Address)) =>
        edit.run s₂) hmoved
      have hothers := ih (h.put parent hparent) (hsites.put (putEach value picked grown)) hlast
        hlast'
      rw [run_ensureEach, hrun] at hothers
      rw [List.flatMap_cons, putEach_append]
      exact hothers

/-! ## The whole path -/

theorem ensureValue_of_concat {path : Path} {parents : List Selector} {last : Selector}
    (h : path.selectors = parents ++ [last]) (root value : Value) :
    path.ensureValue root value = match path.ensureParents root with
      | (grown, .error failure) => (grown, .error failure)
      | (grown, .ok found) =>
          let outcome := (last.ensureEach found grown).run (Supply.always value)
          (outcome.1.1, .ok outcome.1.2) := by
  have hlast : path.selectors.getLast? = some last := by
    rw [h, List.getLast?_concat]
  rw [ensureValue, ensure, hlast]
  generalize path.ensureParents root = outcome
  obtain ⟨grown, failure | found⟩ := outcome
  · rfl
  · rfl

/-- Writing a value to a path and ensuring the path with copies of it fail together, with
the same error, and leave the same tree then.  If they succeed, the written tree is the
same as the ensured one with the value put to every location that ensuring has found.  The
last selector must have no pattern, but those before it can have some. -/
theorem writeValue_same_putEach {text : String} {limit : Nat} {path : Path}
    (hparse : parse text limit = .ok path) (hnumbers : path.isNaNFree = true) {last : Selector}
    (hlast : path.selectors.getLast? = some last) (hplain : last.pattern? = none)
    {root value : Value} (hroot : root.Keyed) (hrootNumbers : root.isNaNFree = true)
    (hvalue : value.Keyed) (hvalueNumbers : value.isNaNFree = true) :
    match path.writeValue root value, path.ensureValue root value with
    | (written, .ok _), (ensured, .ok found) => written.Same (Value.putEach value found ensured)
    | (left, .error failure), (left', .error failure') => left = left' ∧ failure = failure'
    | _, _ => False := by
  obtain ⟨selectors, hselectors⟩ := List.getLast?_eq_some_iff.mp hlast
  rw [writeValue_of_concat hselectors, ensureValue_of_concat hselectors]
  have hself := Value.alike_self hvalue hvalueNumbers
  have hgrown := (ensureParents_alike (numbered_of_parse hparse hnumbers)
    (Value.alike_self hroot hrootNumbers)).1
  generalize hparents : path.ensureParents root = outcome at hgrown ⊢
  obtain ⟨grown, failure | parents⟩ := outcome
  · exact ⟨rfl, rfl⟩
  · exact (editEach_write_alike hplain hself hgrown (ensureParents_sites hparents)
      (Supply.constant_always value) (Supply.constant_always value)).same

/-- The first parent has an empty list, the second one no list, and in the third one a
negative zero is kept where the value is zero. -/
theorem writeValue_same_putEach_in_lists :
    let path : Path := ⟨"a[].b[]", [⟨.child "a", 1⟩, ⟨.elements, 3⟩, ⟨.child "b", 5⟩,
      ⟨.elements, 7⟩]⟩
    let zero (negative : Bool) : Value := .scalar (.float (.finite negative .zero))
    let root : Value := .compound [("a", .list [.compound [],
      .compound [("b", .scalar (.int 1))], .compound [("b", .list [zero true])]])]
    let written : Value := .compound [("a", .list [.compound [("b", .list [zero false])],
      .compound [("b", .scalar (.int 1))], .compound [("b", .list [zero true])]])]
    let ensured : Value := .compound [("a", .list [.compound [("b", .list [zero false])],
      .compound [("b", .scalar (.int 1))], .compound [("b", .list [zero false])]])]
    path.writeValue root (zero false) = (written, .ok 1) ∧ written.Same ensured := by
  intro path zero root written ensured
  have hparse : parse path.text = .ok path := by cbv
  have hroot : root.Keyed := by
    refine .compound (by simp [Compound.keys]) (List.forall_mem_singleton.mpr (.list ?_))
    simp [Value.Keyed.compound, Value.Keyed.list, Value.Keyed.scalar, Compound.keys, zero]
  have hwrite : path.writeValue root (zero false) = (written, .ok 1) := rfl
  have hensure : path.ensureValue root (zero false) = (written, .ok
      [[.key "a", .index 0, .key "b", .index 0], [.key "a", .index 2, .key "b", .index 0]]) := rfl
  have hvalue : (zero false).Keyed := .scalar
  have hsame := writeValue_same_putEach hparse rfl rfl rfl hroot rfl hvalue rfl
  rw [hwrite, hensure] at hsame
  exact ⟨hwrite, hsame⟩

end Path

end TreeQuery
