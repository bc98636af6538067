import Mathlib.Data.List.Induction
import TreeQuery.Path.Locate
import TreeQuery.Proofs.Selector.Locate

/-!
# Laws of what a path picks

`Path.picks` says what selectors pick one after the other, by recursion on the
selectors: each goes down from one value.  The path itself goes on from all
locations at once, and stops at the first selector that picks nothing.  Both find
the same locations in the same order (`locateFrom_of_picks`), and they fail
together (`locateFrom_of_picks_nil`).  So a path counts its picks
(`count_eq_length_picks`).

All picks part from each other (`pairwise_disjoint_picks`).  They stay the same when
one of the picked values is extended (`picks_put`).
-/

namespace TreeQuery.Path

/-- What selectors pick one after the other below a value. -/
def picks : List Selector → Value → List Address
  | [], _ => [[]]
  | selector :: rest, value => (selector.locate value).flatMap (value.searchAt (picks rest))

/-- A path has a last selector, unless it has none at all. -/
theorem selectors_cases (path : Path) :
    path.selectors = [] ∨ ∃ parents last, path.selectors = parents ++ [last] := by
  rcases List.eq_nil_or_concat path.selectors with hnil | ⟨parents, last, hlast⟩
  · exact .inl hnil
  · rw [List.concat_eq_append] at hlast
    exact .inr ⟨parents, last, hlast⟩

theorem mem_picks_cons {selector : Selector} {rest : List Selector} {value : Value}
    {address : Address} :
    address ∈ picks (selector :: rest) value ↔ ∃ first ∈ selector.locate value,
      ∃ inner, value.get? first = some inner
        ∧ ∃ below ∈ picks rest inner, address = first ++ below := by
  rw [picks, List.mem_flatMap]
  simp only [Value.mem_searchAt]

/-! ## The addresses that are picked -/

theorem get?_of_mem_picks {selectors : List Selector} {value : Value} {address : Address}
    (h : address ∈ picks selectors value) : ∃ inner, value.get? address = some inner := by
  induction selectors generalizing value address with
  | nil =>
      rw [List.mem_singleton.mp h]
      exact ⟨value, Value.get?_nil value⟩
  | cons selector rest ih =>
      obtain ⟨first, -, inner, hget, below, hbelow, rfl⟩ := mem_picks_cons.mp h
      obtain ⟨found, hfound⟩ := ih hbelow
      exact ⟨found, by rw [Value.get?_append, hget, Option.bind_some, hfound]⟩

theorem pairwise_disjoint_picks (selectors : List Selector) (value : Value) :
    (picks selectors value).Pairwise Address.Disjoint := by
  induction selectors generalizing value with
  | nil => exact List.pairwise_singleton _ _
  | cons selector rest ih =>
      exact Value.pairwise_searchAt Address.carries_disjoint
        (Selector.pairwise_disjoint_locate selector value) ih

theorem picks_sites (selectors : List Selector) (value : Value) :
    value.Sites (picks selectors value) :=
  ⟨pairwise_disjoint_picks selectors value, fun _ h => get?_of_mem_picks h⟩

/-! ## One selector after the other -/

theorem picks_append (selectors more : List Selector) (value : Value) :
    picks (selectors ++ more) value
      = (picks selectors value).flatMap (value.searchAt (picks more)) := by
  induction selectors generalizing value with
  | nil => simp [picks, Value.searchAt]
  | cons selector rest ih =>
      rw [List.cons_append, picks, picks, List.flatMap_assoc]
      refine List.flatMap_congr fun first hfirst => ?_
      obtain ⟨-, inner, hget, -⟩ := Selector.mem_locate.mp hfirst
      rw [Value.searchAt_of_get? _ hget, Value.searchAt_of_get? _ hget, ih, List.flatMap_map,
        List.map_flatMap]
      refine List.flatMap_congr fun below hbelow => ?_
      obtain ⟨found, hfound⟩ := get?_of_mem_picks hbelow
      have hwhole : value.get? (first ++ below) = some found := by
        rw [Value.get?_append, hget, Option.bind_some, hfound]
      rw [Value.searchAt_of_get? _ hfound, Value.searchAt_of_get? _ hwhole, List.map_map]
      simp only [Function.comp_def, List.append_assoc]

theorem picks_singleton (selector : Selector) (value : Value) :
    picks [selector] value = selector.locate value := by
  have hfirst : ∀ first ∈ selector.locate value, value.searchAt (picks []) first = [first] := by
    intro first hfirst
    obtain ⟨-, inner, hget, -⟩ := Selector.mem_locate.mp hfirst
    rw [Value.searchAt_of_get? _ hget, picks, List.map_singleton, List.append_nil]
  rw [picks, List.flatMap_congr hfirst, List.flatMap_singleton']

theorem locateEach_eq_flatMap (selector : Selector) (root : Value) (addresses : List Address) :
    selector.locateEach root addresses = addresses.flatMap (root.searchAt selector.locate) := by
  rw [Selector.locateEach]
  refine List.flatMap_congr fun address _ => ?_
  rw [Value.searchAt]
  cases root.get? address with
  | none => rfl
  | some inner => rfl

theorem mem_picks_concat {selectors : List Selector} {selector : Selector} {value : Value}
    {address : Address} :
    address ∈ picks (selectors ++ [selector]) value ↔ ∃ above ∈ picks selectors value,
      ∃ inner, value.get? above = some inner
        ∧ ∃ below ∈ selector.locate inner, address = above ++ below := by
  rw [picks_append, List.mem_flatMap]
  simp only [Value.mem_searchAt, picks_singleton]

/-- The last selector picks below what the others pick. -/
theorem picks_concat (selectors : List Selector) (selector : Selector) (value : Value) :
    picks (selectors ++ [selector]) value
      = selector.locateEach value (picks selectors value) := by
  rw [picks_append, locateEach_eq_flatMap, funext (picks_singleton selector)]

/-- What selectors pick, the path finds. -/
theorem locateFrom_append {root : Value} {selectors : List Selector}
    (done rest : List Selector) (ordinal : Nat) (h : picks (done ++ selectors) root ≠ []) :
    locateFrom root ordinal (selectors ++ rest) (picks done root)
      = locateFrom root (ordinal + selectors.length) rest (picks (done ++ selectors) root) := by
  induction selectors generalizing done ordinal with
  | nil => simp
  | cons selector selectors ih =>
      have hassoc : done ++ selector :: selectors = (done ++ [selector]) ++ selectors := by simp
      rw [hassoc] at h ⊢
      have hfirst : selector.locateEach root (picks done root) ≠ [] := by
        rw [← picks_concat]
        intro hnil
        rw [picks_append, hnil] at h
        exact h rfl
      rw [List.cons_append, locateFrom]
      split
      · next hnil => exact absurd hnil hfirst
      · rw [← picks_concat, ih (done ++ [selector]) (ordinal + 1) h, List.length_cons]
        congr 1
        omega

/-- A path finds what its selectors pick. -/
theorem locateFrom_of_picks {root : Value} {selectors : List Selector}
    (h : picks selectors root ≠ []) :
    locateFrom root 0 selectors [[]] = .ok (picks selectors root) := by
  have happend := @locateFrom_append root selectors [] [] 0 h
  rw [List.append_nil] at happend
  exact happend

/-- What a path finds, its selectors pick. -/
theorem picks_of_locateFrom {root : Value} {selectors : List Selector} {found : List Address}
    (done : List Selector) (ordinal : Nat)
    (h : locateFrom root ordinal selectors (picks done root) = .ok found) :
    found = picks (done ++ selectors) root := by
  induction selectors generalizing done ordinal with
  | nil =>
      rw [List.append_nil]
      exact (Except.ok.inj h).symm
  | cons selector rest ih =>
      rw [locateFrom, ← picks_concat] at h
      split at h
      · cases h
      · have hfound := ih (done ++ [selector]) (ordinal + 1) h
        rw [List.append_assoc] at hfound
        exact hfound

/-- A path fails at the first selector that picks nothing. -/
theorem locateFrom_of_picks_nil {root : Value} {done : List Selector} {selector : Selector}
    (rest : List Selector) (hdone : picks done root ≠ [])
    (hnil : picks (done ++ [selector]) root = []) :
    locateFrom root 0 (done ++ selector :: rest) [[]] = .error done.length := by
  have happend := locateFrom_append [] (selector :: rest) 0 hdone
  rw [picks_concat] at hnil
  refine happend.trans ?_
  rw [List.nil_append, locateFrom, hnil, Nat.zero_add]

/-! ## What the path answers -/

/-- A path that fails has picked nothing. -/
theorem locateFrom_cases (selectors : List Selector) (root : Value) :
    locateFrom root 0 selectors [[]] = .ok (picks selectors root)
      ∨ picks selectors root = []
        ∧ ∃ ordinal, locateFrom root 0 selectors [[]] = .error ordinal := by
  by_cases hnil : picks selectors root = []
  · cases h : locateFrom root 0 selectors [[]] with
    | ok found =>
        have hfound := @picks_of_locateFrom root selectors found [] 0 h
        exact .inl (by rw [hfound, List.nil_append])
    | error ordinal => exact .inr ⟨hnil, ordinal, rfl⟩
  · exact .inl (locateFrom_of_picks hnil)

/-- A path that picks something gives the values there. -/
theorem get_of_picks {path : Path} {root : Value} (h : picks path.selectors root ≠ []) :
    path.get root = .ok ((picks path.selectors root).filterMap root.get?) := by
  rw [get, locate, locateFrom_of_picks h]
  rfl

/-- The values a path gives are those at its picks. -/
theorem get_eq_ok {path : Path} {root : Value} {found : List Value}
    (h : path.get root = .ok found) :
    found = (picks path.selectors root).filterMap root.get? := by
  rw [get, locate] at h
  rcases locateFrom_cases path.selectors root with hok | ⟨-, ordinal, herror⟩
  · rw [hok] at h
    exact (Except.ok.inj h).symm
  · rw [herror] at h
    cases h

/-- There is a value at each pick. -/
theorem filterMap_picks_ne_nil {selectors : List Selector} {root : Value}
    (h : picks selectors root ≠ []) : (picks selectors root).filterMap root.get? ≠ [] := by
  obtain ⟨address, haddress⟩ := List.exists_mem_of_ne_nil _ h
  obtain ⟨inner, hinner⟩ := get?_of_mem_picks haddress
  exact List.ne_nil_of_mem (List.mem_filterMap.mpr ⟨address, haddress, hinner⟩)

/-- Selectors that pick nothing have a first one that does. -/
theorem split_of_picks_nil {selectors : List Selector} {root : Value}
    (h : picks selectors root = []) : ∃ before selector after,
      selectors = before ++ selector :: after ∧ picks before root ≠ []
        ∧ picks (before ++ [selector]) root = [] := by
  induction selectors using List.reverseRecOn with
  | nil => cases h
  | append_singleton done last ih =>
      by_cases hdone : picks done root = []
      · obtain ⟨before, selector, after, rfl, hne, hnil⟩ := ih hdone
        exact ⟨before, selector, after ++ [last], by simp, hne, hnil⟩
      · exact ⟨done, last, [], rfl, hdone, h⟩

/-- A path fails at the first selector that picks nothing, and quotes itself up to there. -/
theorem locate_of_picks_nil {path : Path} {root : Value} {before after : List Selector}
    {selector : Selector} (hsplit : path.selectors = before ++ selector :: after)
    (hne : picks before root ≠ []) (hnil : picks (before ++ [selector]) root = []) :
    path.locate root = .error (path.notFound before.length) := by
  rw [Path.locate, hsplit, locateFrom_of_picks_nil after hne hnil]
  rfl

/-- The locations the path picks, none when it fails. -/
def located (path : Path) (root : Value) : List Address :=
  match path.locate root with
  | .ok found => found
  | .error _ => []

/-- A path locates what its selectors pick. -/
theorem located_eq_picks (path : Path) (root : Value) :
    path.located root = picks path.selectors root := by
  rw [located, locate]
  rcases locateFrom_cases path.selectors root with hok | ⟨hnil, ordinal, herror⟩
  · rw [hok]
    rfl
  · rw [herror, hnil]
    rfl

/-- A path counts what its selectors pick. -/
theorem count_eq_length_picks (path : Path) (root : Value) :
    path.count root = (picks path.selectors root).length := by
  rw [count, get, locate]
  rcases locateFrom_cases path.selectors root with hok | ⟨hnil, ordinal, herror⟩
  · rw [hok]
    refine List.filterMap_length_eq_length.mpr fun a ha => ?_
    exact Option.isSome_iff_exists.mpr (get?_of_mem_picks ha)
  · rw [herror, hnil]
    rfl

/-! ## When the picks stay the same -/

/-- To extend one of the picked values changes none of the picks. -/
theorem picks_put {selectors : List Selector} {value old new : Value} {address : Address}
    (hpick : address ∈ picks selectors value) (hget : value.get? address = some old)
    (hext : new.Extends old) : picks selectors (value.put address new) = picks selectors value := by
  induction selectors generalizing value address with
  | nil => rfl
  | cons selector rest ih =>
      obtain ⟨first, hfirst, inner, hinner, below, hbelow, rfl⟩ := mem_picks_cons.mp hpick
      rw [Value.get?_append, hinner, Option.bind_some] at hget
      rw [Value.put_append below new hinner]
      rw [picks, picks, Selector.locate_put hfirst hinner (Value.Extends.put hget hext)]
      refine List.flatMap_congr fun other hother => ?_
      by_cases hsame : first = other
      · subst hsame
        rw [Value.searchAt_of_get? _ (Value.get?_put_self _ hinner),
          Value.searchAt_of_get? _ hinner, ih hbelow hget]
      · have hapart := Selector.disjoint_of_mem_locate hfirst hother hsame
        exact Value.searchAt_congr _ (Value.get?_put_disjoint value _ hapart)

end TreeQuery.Path
