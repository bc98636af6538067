import Mathlib
import TreeQuery.Proofs.Path.Joining
import TreeQuery.Proofs.Path.Locate

/-!
# Where a path fails

A path that picks nothing fails with the text of one of its beginnings.  That text is a
path itself, and it is the shortest beginning that picks nothing: all shorter ones pick
something, and it fails with the whole of its own text.  No other beginning has the same
text (`textThrough_inj`).  So the failure names the one selector at which the path gave
up (`get_beginnings`).

What a beginning picks is known from the selectors alone (`picks`).  The first selector
that picks nothing splits them in two, and both the path and its beginning stop there.
-/

namespace TreeQuery.Path

open Text

/-! ## What a path answers, by its picks -/

theorem get_of_picks_nil {path : Path} {root : Value} {before after : List Selector}
    {selector : Selector} (hsplit : path.selectors = before ++ selector :: after)
    (hne : picks before root ≠ []) (hnil : picks (before ++ [selector]) root = []) :
    path.get root = .error (path.notFound before.length) := by
  rw [get, locate_of_picks_nil hsplit hne hnil]
  rfl

/-- As long as selectors pick something, so do the first of them. -/
theorem picks_take_ne_nil {selectors : List Selector} {root : Value}
    (h : picks selectors root ≠ []) (count : Nat) : picks (selectors.take count) root ≠ [] := by
  intro hnil
  rw [← List.take_append_drop count selectors, picks_append, hnil] at h
  exact h rfl

/-! ## Beginnings -/

variable {limit : Nat} {path : Path} {source : String}

theorem lt_length_of_split {before after : List Selector} {selector : Selector}
    (hsplit : path.selectors = before ++ selector :: after) : before.length < path.length := by
  have hlength := congrArg List.length hsplit
  simp only [selectors, List.length_map, List.length_append, List.length_cons] at hlength
  simp only [length]
  omega

theorem selectors_through (path : Path) (ordinal : Nat) :
    (path.through ordinal).selectors = path.selectors.take (ordinal + 1) :=
  List.map_take

/-- The beginning through a selector is its own text through that selector. -/
theorem textThrough_through (h : parse source limit = .ok path) {ordinal : Nat}
    (hordinal : ordinal < path.length) :
    (path.through ordinal).textThrough ordinal = path.textThrough ordinal := by
  obtain ⟨rfl, hderives⟩ := parse_eq_ok.mp h
  obtain ⟨before, after, -, hstop, hthrough, -⟩ := textThrough_of_derives hderives hordinal
  have hsegment : (path.through ordinal).segments[ordinal]? = some path.segments[ordinal] := by
    rw [through, List.getElem?_take_of_lt (Nat.lt_succ_self ordinal)]
    exact List.getElem?_eq_getElem hordinal
  have htext : (path.through ordinal).text.toList = before ++ [] := by
    rw [through, hthrough, String.toList_ofList, List.append_nil]
  rw [textThrough_of_append hsegment htext hstop, hthrough]

/-- Different beginnings have different texts. -/
theorem textThrough_inj (h : parse source limit = .ok path) {first second : Nat}
    (hfirst : first < path.length) (hsecond : second < path.length) :
    path.textThrough first = path.textThrough second ↔ first = second := by
  obtain ⟨rfl, hderives⟩ := parse_eq_ok.mp h
  constructor
  · intro hsame
    obtain ⟨before, -, -, hstop, hthrough, -⟩ := textThrough_of_derives hderives hfirst
    obtain ⟨before', -, -, hstop', hthrough', -⟩ := textThrough_of_derives hderives hsecond
    have hbefore : before = before' := by
      rw [← @String.toList_ofList before, ← hthrough, hsame, hthrough', String.toList_ofList]
    have hnodup : path.stops.Nodup := hderives.pairwise_stops.imp Nat.ne_of_lt
    have hlength : path.stops.length = path.length := List.length_map _
    have hfirst' : first < path.stops.length := by rwa [hlength]
    have hsecond' : second < path.stops.length := by rwa [hlength]
    have hstops : path.stops[first] = path.stops[second] :=
      calc path.stops[first] = path.segments[first].stop := List.getElem_map _
        _ = byteLength before := hstop
        _ = byteLength before' := by rw [hbefore]
        _ = path.segments[second].stop := hstop'.symm
        _ = path.stops[second] := (List.getElem_map _).symm
    exact hnodup.getElem_inj_iff.mp hstops
  · rintro rfl
    rfl

/-- The beginning through a selector is read as a path, which picks something. -/
def FindsThrough (limit : Nat) (path : Path) (root : Value) (ordinal : Nat) : Prop :=
  ∃ beginning found, parse (path.textThrough ordinal) limit = .ok beginning
    ∧ beginning.selectors = path.selectors.take (ordinal + 1)
    ∧ beginning.get root = .ok found ∧ found ≠ []

/-- The beginning through a selector is read as a path, which fails with the whole of its
own text. -/
def FailsThrough (limit : Nat) (path : Path) (root : Value) (ordinal : Nat) : Prop :=
  ∃ beginning, parse (path.textThrough ordinal) limit = .ok beginning
    ∧ beginning.selectors = path.selectors.take (ordinal + 1)
    ∧ beginning.get root = .error ⟨beginning.text⟩

theorem findsThrough_of_picks (h : parse source limit = .ok path) {root : Value} {ordinal : Nat}
    (hordinal : ordinal < path.length)
    (hpicks : picks (path.selectors.take (ordinal + 1)) root ≠ []) :
    FindsThrough limit path root ordinal := by
  rw [← selectors_through] at hpicks
  exact ⟨path.through ordinal, _, parse_textThrough h hordinal, selectors_through path ordinal,
    get_of_picks hpicks, filterMap_picks_ne_nil hpicks⟩

theorem failsThrough_of_picks_nil (h : parse source limit = .ok path) {root : Value}
    {before after : List Selector} {selector : Selector}
    (hsplit : path.selectors = before ++ selector :: after) (hne : picks before root ≠ [])
    (hnil : picks (before ++ [selector]) root = []) :
    FailsThrough limit path root before.length := by
  have hordinal := lt_length_of_split hsplit
  have hselectors : (path.through before.length).selectors = before ++ [selector] := by
    rw [selectors_through, hsplit, List.take_length_add_append]
    rfl
  refine ⟨path.through before.length, parse_textThrough h hordinal, selectors_through _ _, ?_⟩
  rw [get_of_picks_nil hselectors hne hnil, notFound, textThrough_through h hordinal]
  rfl

/-- A path that fails names the first selector that picks nothing.

The failure quotes the beginning of the path through one selector, and through no other
one.  That beginning is read as a path, which fails and quotes the whole of itself.  All
shorter beginnings are read as paths that pick something.  If the path does not fail, all
of its beginnings pick something. -/
theorem get_beginnings (h : parse source limit = .ok path) (root : Value) :
    match path.get root with
    | .ok _ => ∀ ordinal < path.length, FindsThrough limit path root ordinal
    | .error failure => ∃ ordinal < path.length,
        (∀ other < path.length, failure.text = path.textThrough other ↔ other = ordinal)
          ∧ FailsThrough limit path root ordinal
          ∧ ∀ earlier < ordinal, FindsThrough limit path root earlier := by
  by_cases hpicks : picks path.selectors root = []
  · obtain ⟨before, selector, after, hsplit, hne, hnil⟩ := split_of_picks_nil hpicks
    have hordinal := lt_length_of_split hsplit
    rw [get_of_picks_nil hsplit hne hnil]
    refine ⟨before.length, hordinal, fun other hother => ?_,
      failsThrough_of_picks_nil h hsplit hne hnil, fun earlier hearlier => ?_⟩
    · exact (textThrough_inj h hordinal hother).trans eq_comm
    · refine findsThrough_of_picks h (Nat.lt_trans hearlier hordinal) ?_
      rw [hsplit, List.take_append_of_le_length hearlier]
      exact picks_take_ne_nil hne _
  · rw [get_of_picks hpicks]
    exact fun ordinal hordinal => findsThrough_of_picks h hordinal (picks_take_ne_nil hpicks _)

/-- No element of the list has the key that follows, so the path fails there, one selector
before its end. -/
theorem get_beginnings_without_key :
    let path : Path := ⟨"a[].b.c", [⟨.child "a", 1⟩, ⟨.elements, 3⟩, ⟨.child "b", 5⟩,
      ⟨.child "c", 7⟩]⟩
    let root : Value := .compound [("a", .list [.compound [], .list []])]
    parse path.text = .ok path ∧ path.get root = .error ⟨"a[].b"⟩
      ∧ ∃ ordinal < path.length,
        (∀ other < path.length, "a[].b" = path.textThrough other ↔ other = ordinal)
          ∧ FailsThrough Literal.defaultLimit path root ordinal
          ∧ ∀ earlier < ordinal, FindsThrough Literal.defaultLimit path root earlier := by
  intro path root
  have hparse : parse path.text = .ok path := by cbv
  have hget : path.get root = .error ⟨"a[].b"⟩ := by cbv
  have hbeginnings := get_beginnings hparse root
  rw [hget] at hbeginnings
  exact ⟨hparse, hget, hbeginnings⟩

end TreeQuery.Path
