import TreeQuery.Proofs.Literal.Values
import TreeQuery.Proofs.Path.Parsing
import TreeQuery.Proofs.Selector.Locate

/-!
# The patterns of a path

An edit puts a copy of a pattern where nothing matches it.  So much depends on
whether a pattern accepts its own copy (`Selector.Copyable`).  The patterns of a
path that was read from a text have distinct keys, since a compound literal keeps
only one of the entries with the same key.  Unless a number in it is missing, such
a pattern accepts its copy (`Path.copyable_of_parse`).

In such a path a root filter can only come first, so every selector after it goes down
one step (`Path.selectors_of_parse`).
-/

namespace TreeQuery

/-- No number is missing in the patterns of the path. -/
def Path.isNaNFree (path : Path) : Bool :=
  path.selectors.all fun selector =>
    selector.pattern?.all fun pattern => (Value.compound pattern).isNaNFree

namespace Path

/-! ## Filters -/

/-- The pattern of the selector, if it has one, is the value of a filter that stands in the
text. -/
def FilterIn (limit : Nat) (text : List Char) (selector : Selector) : Prop :=
  ∀ pattern ∈ selector.pattern?,
    ∃ filter, Literal.CompoundText limit filter pattern ∧ filter <:+: text

theorem FilterIn.mono {limit : Nat} {text text' : List Char} {selector : Selector}
    (h : FilterIn limit text selector) (hstands : text <:+: text') :
    FilterIn limit text' selector := by
  intro pattern hpattern
  obtain ⟨filter, hfilter, hin⟩ := h pattern hpattern
  exact ⟨filter, hfilter, hin.trans hstands⟩

theorem SelectorText.filterIn {limit : Nat} {first : Bool} {text : List Char}
    {selector : Selector} (h : SelectorText limit first text selector) :
    FilterIn limit text selector := by
  intro pattern hpattern
  cases h with
  | child => cases hpattern
  | childMatching _ hfilter =>
      obtain rfl := Option.some.inj hpattern
      exact ⟨_, hfilter, (List.suffix_append ..).isInfix⟩
  | index hindex =>
      cases hindex with
      | elements => cases hpattern
      | element => cases hpattern
      | elementsMatching hfilter =>
          obtain rfl := Option.some.inj hpattern
          exact ⟨_, hfilter, ['['], [']'], rfl⟩
  | rootMatching hfilter =>
      obtain rfl := Option.some.inj hpattern
      exact ⟨_, hfilter, List.infix_refl _⟩

theorem SegmentsText.filterIn {limit start : Nat} {first : Bool} {text : List Char}
    {segments : List Segment} (h : SegmentsText limit first start text segments) :
    ∀ segment ∈ segments, FilterIn limit text segment.selector := by
  induction h with
  | last hselector => exact List.forall_mem_singleton.mpr hselector.filterIn
  | point hselector _ ih =>
      refine List.forall_mem_cons.mpr ⟨?_, fun segment hsegment => ?_⟩
      · exact hselector.filterIn.mono (List.prefix_append ..).isInfix
      · exact ((ih segment hsegment).mono (List.suffix_cons ..).isInfix).mono
          (List.suffix_append ..).isInfix
  | adjacent hselector _ _ ih =>
      refine List.forall_mem_cons.mpr ⟨?_, fun segment hsegment => ?_⟩
      · exact hselector.filterIn.mono (List.prefix_append ..).isInfix
      · exact (ih segment hsegment).mono (List.suffix_append ..).isInfix

/-- The patterns of a path that was read are the values of filters in its text. -/
theorem filterIn_of_parse {text : String} {limit : Nat} {path : Path}
    (h : parse text limit = .ok path) :
    ∀ selector ∈ path.selectors, FilterIn limit text.toList selector := by
  intro selector hselector
  obtain ⟨segment, hsegment, rfl⟩ := List.mem_map.mp hselector
  exact (parse_eq_ok.mp h).2.filterIn segment hsegment

/-! ## Copies of patterns -/

/-- The keys in the patterns of a path that was read are distinct, and no number is missing
if none is missing in the path. -/
theorem patterns_of_parse {text : String} {limit : Nat} {path : Path}
    (h : parse text limit = .ok path) (hnumbers : path.isNaNFree = true) :
    ∀ selector ∈ path.selectors, ∀ pattern ∈ selector.pattern?,
      Value.Keyed (.compound pattern) ∧ (Value.compound pattern).isNaNFree = true := by
  intro selector hselector pattern hpattern
  obtain ⟨filter, hfilter, -⟩ := filterIn_of_parse h selector hselector pattern hpattern
  have hnumber := List.all_eq_true.mp hnumbers selector hselector
  rw [Option.mem_def.mp hpattern, Option.all_some] at hnumber
  exact ⟨hfilter.keyed, hnumber⟩

/-- The patterns of a path that was read accept their copies, unless a number in
them is missing. -/
theorem copyable_of_parse {text : String} {limit : Nat} {path : Path}
    (h : parse text limit = .ok path) (hnumbers : path.isNaNFree = true) :
    ∀ selector ∈ path.selectors, selector.Copyable := by
  intro selector hselector pattern hpattern
  obtain ⟨hkeyed, hnumber⟩ := patterns_of_parse h hnumbers selector hselector pattern hpattern
  exact Value.accepts_self hkeyed hnumber

/-! ## Root filters -/

theorem SelectorText.reach {limit : Nat} {text : List Char} {selector : Selector}
    (h : SelectorText limit false text selector) : selector.reach = 1 := by
  cases h with
  | child => rfl
  | childMatching => rfl
  | index hindex =>
      cases hindex with
      | elements => rfl
      | element => rfl
      | elementsMatching => rfl

theorem SegmentsText.reach {limit start : Nat} {first : Bool} {text : List Char}
    {segments : List Segment} (h : SegmentsText limit first start text segments) :
    ∃ selector rest, segments.map Segment.selector = selector :: rest
      ∧ (first = false → selector.reach = 1) ∧ ∀ other ∈ rest, other.reach = 1 := by
  induction h with
  | last hselector =>
      refine ⟨_, [], rfl, ?_, nofun⟩
      rintro rfl
      exact hselector.reach
  | point hselector _ ih =>
      obtain ⟨next, rest, hrest, hnext, hothers⟩ := ih
      refine ⟨_, next :: rest, by rw [List.map_cons, hrest], ?_, ?_⟩
      · rintro rfl
        exact hselector.reach
      · exact List.forall_mem_cons.mpr ⟨hnext rfl, hothers⟩
  | adjacent hselector _ _ ih =>
      obtain ⟨next, rest, hrest, hnext, hothers⟩ := ih
      refine ⟨_, next :: rest, by rw [List.map_cons, hrest], ?_, ?_⟩
      · rintro rfl
        exact hselector.reach
      · exact List.forall_mem_cons.mpr ⟨hnext rfl, hothers⟩

/-- A path that was read has a selector, and only the first one can be a root
filter. -/
theorem selectors_of_parse {text : String} {limit : Nat} {path : Path}
    (h : parse text limit = .ok path) :
    ∃ selector rest, path.selectors = selector :: rest ∧ ∀ other ∈ rest, other.reach = 1 := by
  obtain ⟨-, htext⟩ := parse_eq_ok.mp h
  obtain ⟨selector, rest, hselectors, -, hothers⟩ := htext.reach
  exact ⟨selector, rest, hselectors, hothers⟩

end Path

end TreeQuery
