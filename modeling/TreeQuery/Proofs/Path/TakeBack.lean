import Mathlib
import TreeQuery.Proofs.Number.Layout
import TreeQuery.Proofs.Path.Erase
import TreeQuery.Proofs.Path.Insert
import TreeQuery.Proofs.Path.Joining
import TreeQuery.Proofs.Path.Rewrite

/-!
# Taking back what was put into lists

An index from the end counts the places between the elements when a value is put into
a list, and the elements when one is picked or erased.  A list has one place more than
it has elements, and one element more after the value is there.  So the index that
put a value into a list picks that value afterwards (`resolveIndex_insertIdx`), whatever
the length of the list.

Hence the path with the index after it reads back what was put into the lists of the
path, and erasing it leaves the tree that was there when all lists had been made
(`insert_taken_back`).  The lists part from each other, so each of them can be restored
by itself (`Value.editEach_put`).
-/

namespace TreeQuery.Path

/-! ## One list -/

theorem spliced_singleton {position : Int} {value : Value} {items : List Value}
    (h : 0 ≤ position ∧ position ≤ items.length) :
    spliced position [value] items = items.insertIdx position.toNat value := by
  have hplace : position.toNat ≤ items.length := by omega
  rw [spliced, ← take_append_drop_insertIdx value [] hplace]
  simp

/-- The index that put a value into a list is the index of the value. -/
theorem resolveIndex_insertIdx {index : Int64} (value : Value) {items : List Value}
    (h : 0 ≤ insertPosition index.toInt items ∧ insertPosition index.toInt items ≤ items.length) :
    resolveIndex index (items.insertIdx (insertPosition index.toInt items).toNat value).length
      = some (insertPosition index.toInt items).toNat := by
  rw [List.length_insertIdx_of_le_length (by omega)]
  simp only [resolveIndex, insertPosition] at h ⊢
  grind

/-! ## One target -/

/-- A list that has received one value is the list of before with the value at the
position. -/
theorem Receives.singleton {index : Int} {value old new : Value} {position : Int}
    (h : Receives index [value] old new position) :
    ∃ items, old = .list items
      ∧ new = .list (items.insertIdx (insertPosition index items).toNat value)
      ∧ 0 ≤ insertPosition index items ∧ insertPosition index items ≤ items.length := by
  cases h with
  | @list items hfits =>
      have hposition := hfits.resolve_left (List.cons_ne_nil _ _)
      exact ⟨items, rfl, by rw [spliced_singleton hposition], hposition⟩

theorem Receives.erase {index : Int64} {value old new : Value} {position : Int}
    (h : Receives index.toInt [value] old new position) :
    (Selector.element index).erase new = (old, 1) := by
  obtain ⟨items, rfl, rfl, hposition⟩ := h.singleton
  simp [Selector.erase, resolveIndex_insertIdx value hposition, List.eraseIdx_insertIdx_self]

/-- The index picks exactly the value that was put. -/
theorem Receives.locate {index : Int64} {value old new : Value} {position : Int}
    (h : Receives index.toInt [value] old new position) :
    ∃ place, (Selector.element index).locate new = [[.index place]]
      ∧ new.get? [.index place] = some value := by
  obtain ⟨items, rfl, rfl, hposition⟩ := h.singleton
  refine ⟨(insertPosition index.toInt items).toNat, ?_, ?_⟩
  · simp [Selector.locate, resolveIndex_insertIdx value hposition]
  · have hplace : (insertPosition index.toInt items).toNat ≤ items.length := by omega
    simp [Value.get?_index, List.getElem?_insertIdx_self, hplace]

/-! ## All targets -/

/-- Where all targets have received the value, erasing at the index restores them. -/
theorem editEach_erase_insertEach {index : Int64} {value : Value} {targets : List Address} :
    ∀ {root result : Value} {count : Nat}, root.Sites targets →
      insertEach index.toInt [value] targets root = (result, .ok count) →
      Id.run (Value.editEach (fun found => pure ((Selector.element index).erase found)) targets
        result) = (root, targets.map fun target => (target, 1)) := by
  induction targets with
  | nil =>
      intro root result count _ hinsert
      rw [← (Prod.mk.inj hinsert).1]
      rfl
  | cons target rest ih =>
      intro root result count hsites hinsert
      obtain ⟨haway, -⟩ := List.pairwise_cons.mp hsites.apart
      obtain ⟨old, hget⟩ := hsites.there target (List.mem_cons_self ..)
      rcases receives_or_refuses index.toInt [value] old with
        ⟨new, position, hreceives⟩ | ⟨fault, hrefuses⟩
      · rw [insertEach_of_receives hget hreceives] at hinsert
        have hspec := insertEach_spec index.toInt [value] (hsites.put new)
        generalize hrest : insertEach index.toInt [value] rest (root.put target new) = others
          at hinsert hspec
        obtain ⟨after, fault | more⟩ := others
        · cases (Prod.mk.inj hinsert).2
        · obtain rfl : after = result := (Prod.mk.inj hinsert).1
          -- The other lists do not matter for this one.
          have hnew : after.get? target = some new := by
            cases hspec with
            | all hedited =>
                rw [hedited.frame target fun b hb => .inl (haway b hb).symm]
                exact Value.get?_put_self new hget
          have hothers := ih (hsites.put new) hrest
          have hback : (root.put target new).put target old = root := by
            rw [Value.put_put_self, Value.put_get? hget]
          simp only [Value.editEach, hnew, hreceives.erase, pure_bind,
            Value.editEach_put _ old after haway, Id.run_bind, Id.run_map, hothers, hback,
            Id.run_pure, List.map_cons]
      · rw [insertEach_of_refuses hget hrefuses] at hinsert
        cases (Prod.mk.inj hinsert).2

/-! ## The path with the index after it -/

/-- An index in brackets. -/
def bracketed (index : Int64) : String :=
  String.ofList ('[' :: (Numeral.ofInt index.toInt ++ [']']))

/-- The text of a path with an index after it is read as the path with that index. -/
theorem parse_bracketed {text : String} {limit : Nat} {path : Path}
    (h : parse text limit = .ok path) (index : Int64) :
    ∃ whole, parse (text ++ bracketed index) limit = .ok whole
      ∧ whole.selectors = path.selectors ++ [.element index] := by
  have hint : Numeral.IntegerText (Numeral.ofInt index.toInt) index.toInt := by
    simpa using Numeral.integerText_ofInt false index.toInt
  have hselector : SelectorText limit true (bracketed index).toList (.element index) := by
    rw [bracketed, String.toList_ofList]
    exact .index (.element hint)
  have hhead : (bracketed index).toList.head? = some '[' := by simp [bracketed]
  have hderives : Derives limit (bracketed index).toList
      [⟨.element index, 0 + Text.byteLength (bracketed index).toList⟩] := .last hselector
  have hparse : parse (bracketed index) limit = .ok ⟨bracketed index, _⟩ :=
    parse_eq_ok.mpr ⟨rfl, hderives⟩
  have hjoint : "".toList = ['.'] ∨ "".toList = [] ∧ (bracketed index).toList.head? = some '[' :=
    .inr ⟨rfl, hhead⟩
  have hbrace : (bracketed index).toList.head? ≠ some '\x7b' := by
    rw [hhead]
    decide
  have hjoin := parse_join hjoint hbrace h hparse
  rw [String.append_empty] at hjoin
  exact ⟨_, hjoin, selectors_join path "" _⟩

/-- Without patterns, a path picks the same before and after values were put into its
lists. -/
theorem picks_of_inserted {path : Path} {index : Int} {values : List Value}
    {grown result : Value} {count : Nat}
    (hplain : ∀ selector ∈ path.selectors, selector.pattern? = none)
    (h : Inserted index values (picks path.selectors grown) grown result (.ok count)) :
    picks path.selectors result = picks path.selectors grown := by
  cases h with
  | all hedited => exact picks_of_plain hplain hedited.agrees

/-- The index after the path picks one location in every list that has received the
value. -/
theorem searchAt_of_received {index : Int64} {value grown result : Value}
    {targets : List Address} {positions : List (Address × Int)}
    (h : Value.EditedEach (Receives index.toInt [value]) targets grown result positions)
    {target : Address} (htarget : target ∈ targets) :
    ∃ address, result.searchAt (Selector.element index).locate target = [address]
      ∧ result.get? address = some value := by
  rw [← h.places] at htarget
  obtain ⟨answer, hanswer, rfl⟩ := List.mem_map.mp htarget
  obtain ⟨old, new, -, hnew, hreceives⟩ := h.each answer hanswer
  obtain ⟨place, hlocate, hget⟩ := hreceives.locate
  refine ⟨answer.1 ++ [.index place], ?_, ?_⟩
  · rw [Value.searchAt_of_get? _ hnew, hlocate, List.map_singleton]
  · rw [Value.get?_append, hnew, Option.bind_some, hget]

theorem picks_of_received {selectors : List Selector} {index : Int64} {value grown result : Value}
    {positions : List (Address × Int)}
    (h : Value.EditedEach (Receives index.toInt [value]) (picks selectors grown) grown result
      positions)
    (hpicks : picks selectors result = picks selectors grown) :
    (picks (selectors ++ [.element index]) result).length = (picks selectors grown).length
      ∧ ∀ address ∈ picks (selectors ++ [.element index]) result,
        result.get? address = some value := by
  rw [picks_concat, locateEach_eq_flatMap, hpicks]
  constructor
  · rw [List.length_flatMap]
    have hone : ∀ target ∈ picks selectors grown,
        (result.searchAt (Selector.element index).locate target).length = 1 := by
      intro target htarget
      obtain ⟨address, hsearch, -⟩ := searchAt_of_received h htarget
      rw [hsearch, List.length_singleton]
    rw [List.map_congr_left hone]
    simp
  · intro address haddress
    obtain ⟨target, htarget, hmem⟩ := List.mem_flatMap.mp haddress
    obtain ⟨found, hsearch, hget⟩ := searchAt_of_received h htarget
    rw [hsearch, List.mem_singleton] at hmem
    rw [hmem, hget]

/-- Where all lists have received the value, the index after the path picks it in each
of them, and erasing takes it away again. -/
theorem taken_back_of_inserted {path whole : Path} {index : Int64} {value grown result : Value}
    {count : Nat} (hplain : ∀ selector ∈ path.selectors, selector.pattern? = none)
    (hwhole : whole.selectors = path.selectors ++ [.element index])
    (hinsert : insertEach index.toInt [value] (picks path.selectors grown) grown
      = (result, .ok count)) :
    (0 < count → ∃ found, whole.locate result = .ok found ∧ found.Nodup ∧ found.length = count
        ∧ ∀ address ∈ found, result.get? address = some value)
      ∧ whole.erase result = (grown, count) := by
  have hsites := picks_sites path.selectors grown
  have hinserted := insertEach_spec index.toInt [value] hsites
  have herase := editEach_erase_insertEach hsites hinsert
  rw [hinsert] at hinserted
  have hpicks := picks_of_inserted hplain hinserted
  obtain ⟨positions, hedited, rfl⟩ : ∃ positions, Value.EditedEach (Receives index.toInt [value])
      (picks path.selectors grown) grown result positions
        ∧ count = (picks path.selectors grown).length := by
    cases hinserted with
    | all hedited => exact ⟨_, hedited, by simp⟩
  obtain ⟨hlength, hvalues⟩ := picks_of_received hedited hpicks
  constructor
  · intro hcount
    have hne : picks whole.selectors result ≠ [] := by
      rw [hwhole]
      exact List.ne_nil_of_length_pos (by omega)
    refine ⟨picks whole.selectors result, ?_, ?_, ?_, ?_⟩
    · simp [locate, locateFrom_of_picks hne, Except.mapError]
    · refine (pairwise_disjoint_picks _ _).imp fun hapart heq => ?_
      exact hapart.1 (heq ▸ List.prefix_refl _)
    · rw [hwhole, hlength]
    · rw [hwhole]
      exact hvalues
  · rw [erase_of_concat hwhole]
    rcases locateFrom_cases path.selectors result with hok | ⟨hnil, ordinal, herror⟩
    · rw [hok, hpicks]
      simp [herase, total_eq_sum, Function.comp_def]
    · rw [hpicks] at hnil
      rw [hnil, insertEach] at hinsert
      obtain rfl : grown = result := (Prod.mk.inj hinsert).1
      simp [herror, hnil]

/-- What is put into the lists of a path at an index can be read and taken back there.

The path is one that was read and has no filters.  If it put a value into some lists at
an index, the path with this index after it picks as many locations, and each of them
holds the value.  Erasing it takes away as many values, and what stays is the tree with
the empty lists that were made on the way. -/
theorem insert_taken_back {text : String} {limit : Nat} {path : Path}
    (hparse : parse text limit = .ok path)
    (hplain : ∀ selector ∈ path.selectors, selector.pattern? = none)
    {index : Int64} {root value result : Value} {count : Nat}
    (hinsert : path.insert index.toInt root [value] = (result, .ok count)) :
    ∃ whole, parse (text ++ bracketed index) limit = .ok whole
      ∧ whole.selectors = path.selectors ++ [.element index]
      ∧ (0 < count → ∃ found, whole.locate result = .ok found ∧ found.Nodup
          ∧ found.length = count ∧ ∀ address ∈ found, result.get? address = some value)
      ∧ whole.erase result = ((path.ensureValue root (.list [])).1, count) := by
  have hcopy : ∀ selector ∈ path.selectors, selector.Copyable := fun selector hmem =>
    Selector.copyable_of_plain (hplain selector hmem)
  obtain ⟨whole, hread, hwhole⟩ := parse_bracketed hparse index
  have hensured : Ensured path (path.ensureValue root (.list [])).1
      (path.ensureValue root (.list [])).2 := ensure_spec hcopy root (Supply.always (.list []))
  rw [insert] at hinsert
  generalize path.ensureValue root (.list []) = ensured at hinsert hensured ⊢
  obtain ⟨grown, failure | targets⟩ := ensured
  · cases (Prod.mk.inj hinsert).2
  · cases hensured with
    | ok hsettled htargets hparents =>
        dsimp only at hinsert htargets
        rw [htargets] at hinsert
        exact ⟨whole, hread, hwhole, taken_back_of_inserted hplain hwhole hinsert⟩

/-- The lists have two elements, none and one.  The second one is made on the way, and
it stays when the value is taken back. -/
theorem insert_taken_back_at_ends :
    let path : Path := ⟨"a[].b", [⟨.child "a", 1⟩, ⟨.elements, 3⟩, ⟨.child "b", 5⟩]⟩
    let one : Value := .scalar (.int 1)
    let two : Value := .scalar (.int 2)
    let holding : List (List Value) → Value := fun lists =>
      .compound [("a", .list (lists.map fun items => .compound [("b", .list items)]))]
    let root : Value := .compound [("a", .list [.compound [("b", .list [one, one])],
      .compound [], .compound [("b", .list [one])]])]
    let result : Value := holding [[one, one, two], [two], [one, two]]
    parse path.text = .ok path
      ∧ path.insert (-1 : Int64).toInt root [two] = (result, .ok 3)
      ∧ ∃ whole, parse "a[].b[-1]" = .ok whole
        ∧ (∃ found, whole.locate result = .ok found ∧ found.length = 3
          ∧ ∀ address ∈ found, result.get? address = some two)
        ∧ whole.erase result = (holding [[one, one], [], [one]], 3) := by
  intro path one two holding root result
  have hparse : parse path.text = .ok path := by cbv
  have hplain : ∀ selector ∈ path.selectors, selector.pattern? = none := by
    simp [path, selectors, Selector.pattern?]
  have hinsert : path.insert (-1 : Int64).toInt root [two] = (result, .ok 3) := by rfl
  obtain ⟨whole, hwhole, -, hlocate, herase⟩ := insert_taken_back hparse hplain hinsert
  obtain ⟨found, hfound, -, hlength, hvalues⟩ := hlocate (by decide)
  have htext : path.text ++ bracketed (-1) = "a[].b[-1]" := by cbv
  rw [htext] at hwhole
  exact ⟨hparse, hinsert, whole, hwhole, ⟨found, hfound, hlength, hvalues⟩, herase⟩

end TreeQuery.Path
