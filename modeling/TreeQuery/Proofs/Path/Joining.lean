import Mathlib
import TreeQuery.Proofs.Path.Parsing

/-!
# Splitting and joining paths

The text of a path can be cut after each of its selectors, and what stands before the
cut is a path too (`SegmentsText.take`, `parse_textThrough`).  It has the selectors up
to there, and they end where they did.

Two paths can be joined by a point, or without one where the second starts with a
bracket (`SegmentsText.join`).  Only a filter alone cannot follow, since it may come
first only.  Joining shifts the ends in the second path and changes nothing else.

Both are inductions on the derivation of the first path.  So they hold whatever keys
and filters there are, and `parse_split_join` carries them over to the reader.
-/

namespace TreeQuery

/-- The same segment of a path with more bytes before it. -/
def Segment.shift (count : Nat) (segment : Segment) : Segment :=
  ⟨segment.selector, segment.stop + count⟩

namespace Path

open Text

variable {limit start : Nat} {first : Bool} {text : List Char} {segments : List Segment}

theorem SelectorText.byteLength_pos {selector : Selector}
    (h : SelectorText limit first text selector) : 0 < byteLength text := by
  obtain ⟨c, hhead, -⟩ := h.head?
  obtain ⟨rest, rfl⟩ := List.head?_eq_some_iff.mp hhead
  have hsize := c.utf8Size_pos
  simp
  omega

/-! ## Where the selectors end -/

/-- The ends of the selectors increase from the start of the path. -/
theorem SegmentsText.isChain_stops (h : SegmentsText limit first start text segments) :
    (start :: segments.map Segment.stop).IsChain (· < ·) := by
  induction h with
  | last hselector => simpa using hselector.byteLength_pos
  | point hselector _ ih =>
      refine List.isChain_cons_cons.mpr ⟨by simpa using hselector.byteLength_pos, ?_⟩
      refine ih.imp_head fun {_} hlt => ?_
      rw [byteLength_append] at hlt
      exact Nat.lt_of_le_of_lt (Nat.add_le_add_left (Nat.le_add_right ..) _) hlt
  | adjacent hselector _ _ ih =>
      exact List.isChain_cons_cons.mpr ⟨by simpa using hselector.byteLength_pos, ih⟩

theorem Derives.pairwise_stops (h : Derives limit text segments) :
    (segments.map Segment.stop).Pairwise (· < ·) :=
  (List.pairwise_cons.mp (List.isChain_iff_pairwise.mp h.isChain_stops)).2

/-- The last selector ends with the path. -/
theorem SegmentsText.getLast?_stops (h : SegmentsText limit first start text segments) :
    (segments.map Segment.stop).getLast? = some (start + byteLength text) := by
  induction h with
  | last => rfl
  | point _ _ ih => simp [List.getLast?_cons, ih]; omega
  | adjacent _ _ _ ih => simp [List.getLast?_cons, ih]; omega

/-! ## Cutting a path -/

/-- Up to the end of each selector the text is the text of a path. -/
theorem SegmentsText.take (h : SegmentsText limit first start text segments) {ordinal : Nat}
    {segment : Segment} (hsegment : segments[ordinal]? = some segment) :
    ∃ before after, text = before ++ after ∧ segment.stop = start + byteLength before
      ∧ SegmentsText limit first start before (segments.take (ordinal + 1)) := by
  induction h generalizing ordinal with
  | @last first start text selector hselector =>
      cases ordinal with
      | zero =>
          obtain rfl := Option.some.inj hsegment
          exact ⟨text, [], by simp, rfl, .last hselector⟩
      | succ ordinal => cases hsegment
  | @point first start text rest selector segments hselector hrest ih =>
      cases ordinal with
      | zero =>
          obtain rfl := Option.some.inj hsegment
          exact ⟨text, '.' :: rest, rfl, rfl, .last hselector⟩
      | succ ordinal =>
          obtain ⟨before, after, rfl, hstop, hbefore⟩ := ih hsegment
          refine ⟨text ++ '.' :: before, after, by simp, ?_, .point hselector hbefore⟩
          rw [hstop]
          simp
          omega
  | @adjacent first start text rest selector segments hselector hbracket hrest ih =>
      cases ordinal with
      | zero =>
          obtain rfl := Option.some.inj hsegment
          exact ⟨text, rest, rfl, rfl, .last hselector⟩
      | succ ordinal =>
          obtain ⟨before, after, rfl, hstop, hbefore⟩ := ih hsegment
          have hhead : before.head? = some '[' := by
            obtain ⟨c, hc, -⟩ := hbefore.head?
            rw [List.head?_append, hc] at hbracket
            rw [hc]
            exact hbracket
          refine ⟨text ++ before, after, by simp, ?_, .adjacent hselector hhead hbefore⟩
          rw [hstop]
          simp
          omega

/-- The beginning of a path through one of its selectors. -/
def through (path : Path) (ordinal : Nat) : Path :=
  ⟨path.textThrough ordinal, path.segments.take (ordinal + 1)⟩

/-- The text through a selector is cut off where the selector ends. -/
theorem textThrough_of_append {path : Path} {ordinal : Nat} {segment : Segment}
    {before after : List Char} (hsegment : path.segments[ordinal]? = some segment)
    (htext : path.text.toList = before ++ after) (hstop : segment.stop = byteLength before) :
    path.textThrough ordinal = String.ofList before := by
  simp only [textThrough, hsegment, htext, hstop, splitBytes?_byteLength_append]

/-- The text of a path is cut at each of its selectors. -/
theorem textThrough_of_derives {path : Path} (h : Derives limit path.text.toList path.segments)
    {ordinal : Nat} (hordinal : ordinal < path.length) :
    ∃ before after, path.text.toList = before ++ after
      ∧ path.segments[ordinal].stop = byteLength before
      ∧ path.textThrough ordinal = String.ofList before
      ∧ Derives limit before (path.segments.take (ordinal + 1)) := by
  have hsegment : path.segments[ordinal]? = some path.segments[ordinal] :=
    List.getElem?_eq_getElem hordinal
  obtain ⟨before, after, htext, hstop, hbefore⟩ := h.take hsegment
  rw [Nat.zero_add] at hstop
  exact ⟨before, after, htext, hstop, textThrough_of_append hsegment htext hstop, hbefore⟩

/-- Each beginning of a path is read as a path. -/
theorem parse_textThrough {source : String} {path : Path} (h : parse source limit = .ok path)
    {ordinal : Nat} (hordinal : ordinal < path.length) :
    parse (path.textThrough ordinal) limit = .ok (path.through ordinal) := by
  obtain ⟨rfl, hderives⟩ := parse_eq_ok.mp h
  obtain ⟨before, after, -, -, hthrough, hbefore⟩ := textThrough_of_derives hderives hordinal
  refine parse_eq_ok.mpr ⟨rfl, ?_⟩
  rw [hthrough, String.toList_ofList]
  exact hbefore

/-! ## Joining paths -/

/-- A selector may stand anywhere unless it starts with a brace. -/
theorem SelectorText.anywhere {selector : Selector} (h : SelectorText limit first text selector)
    (hbrace : text.head? ≠ some '\x7b') : SelectorText limit false text selector := by
  cases h with
  | child hkey => exact .child hkey
  | childMatching hkey hfilter => exact .childMatching hkey hfilter
  | index hindex => exact .index hindex
  | rootMatching hfilter => exact absurd hfilter.head? hbrace

theorem SegmentsText.anywhere (h : SegmentsText limit first start text segments)
    (hbrace : text.head? ≠ some '\x7b') : SegmentsText limit false start text segments := by
  have happend : ∀ {c : Char} {before after : List Char}, before.head? = some c →
      (before ++ after).head? ≠ some '\x7b' → before.head? ≠ some '\x7b' := by
    intro c before after hc hne
    rwa [List.head?_append, hc, Option.some_or, ← hc] at hne
  cases h with
  | last hselector => exact .last (hselector.anywhere hbrace)
  | point hselector hrest =>
      obtain ⟨c, hc, -⟩ := hselector.head?
      exact .point (hselector.anywhere (happend hc hbrace)) hrest
  | adjacent hselector hbracket hrest =>
      obtain ⟨c, hc, -⟩ := hselector.head?
      exact .adjacent (hselector.anywhere (happend hc hbrace)) hbracket hrest

/-- The text of a path may stand further on in a path. -/
theorem SegmentsText.shift (h : SegmentsText limit first start text segments) (count : Nat) :
    SegmentsText limit first (start + count) text (segments.map (Segment.shift count)) := by
  induction h with
  | last hselector =>
      rw [List.map_singleton, Segment.shift, Nat.add_right_comm]
      exact .last hselector
  | point hselector _ ih =>
      rw [List.map_cons, Segment.shift, Nat.add_right_comm]
      rw [Nat.add_right_comm] at ih
      exact .point hselector ih
  | adjacent hselector hbracket _ ih =>
      rw [List.map_cons, Segment.shift, Nat.add_right_comm]
      rw [Nat.add_right_comm] at ih
      exact .adjacent hselector hbracket ih

/-- A point joins any path, and nothing need stand before a bracket. -/
theorem SegmentsText.join {joint rest : List Char} {more : List Segment}
    (hjoint : joint = ['.'] ∨ joint = [] ∧ rest.head? = some '[')
    (h : SegmentsText limit first start text segments)
    (hrest : SegmentsText limit false (start + byteLength (text ++ joint)) rest more) :
    SegmentsText limit first start (text ++ (joint ++ rest)) (segments ++ more) := by
  induction h with
  | last hselector =>
      rcases hjoint with rfl | ⟨rfl, hbracket⟩
      · exact .point hselector hrest
      · rw [List.append_nil] at hrest
        exact .adjacent hselector hbracket hrest
  | @point first start text tail selector segments hselector _ ih =>
      have hplace : start + byteLength (text ++ '.' :: tail ++ joint)
          = start + byteLength (text ++ ['.']) + byteLength (tail ++ joint) := by
        simp
        omega
      rw [hplace] at hrest
      rw [List.append_assoc, List.cons_append]
      exact .point hselector (ih hrest)
  | @adjacent first start text tail selector segments hselector hbracket _ ih =>
      have hplace : start + byteLength (text ++ tail ++ joint)
          = start + byteLength text + byteLength (tail ++ joint) := by
        simp
        omega
      rw [hplace] at hrest
      rw [List.append_assoc]
      refine .adjacent hselector ?_ (ih hrest)
      rw [List.head?_append, hbracket]
      rfl

/-- Two paths with a text between them. -/
def join (path : Path) (joint : String) (path' : Path) : Path :=
  ⟨path.text ++ joint ++ path'.text,
    path.segments ++ path'.segments.map (Segment.shift (byteLength (path.text ++ joint).toList))⟩

theorem selectors_join (path : Path) (joint : String) (path' : Path) :
    (path.join joint path').selectors = path.selectors ++ path'.selectors := by
  simp [join, selectors, Segment.shift]

/-- Two paths joined are read as a path with the selectors of both. -/
theorem parse_join {first second joint : String} {path path' : Path}
    (hjoint : joint.toList = ['.'] ∨ joint.toList = [] ∧ second.toList.head? = some '[')
    (hbrace : second.toList.head? ≠ some '\x7b') (h : parse first limit = .ok path)
    (h' : parse second limit = .ok path') :
    parse (first ++ joint ++ second) limit = .ok (path.join joint path') := by
  obtain ⟨rfl, hfirst⟩ := parse_eq_ok.mp h
  obtain ⟨rfl, hsecond⟩ := parse_eq_ok.mp h'
  have hshift := (hsecond.anywhere hbrace).shift (byteLength (path.text.toList ++ joint.toList))
  refine parse_eq_ok.mpr ⟨rfl, ?_⟩
  rw [join, String.toList_append, String.toList_append, List.append_assoc]
  exact SegmentsText.join hjoint hfirst hshift

/-- Paths split and join at their selectors.

The ends of the selectors of a path increase, each of them is between two characters of
the text, and the last one is the end of the text.  The text up to each is read as a path
with the selectors and the ends up to there.  And two paths joined by a point are read as
a path with the selectors of both, unless the second starts with a brace.  Before a
bracket the point may be left out. -/
theorem parse_split_join (limit : Nat) :
    (∀ (text : String) (path : Path), parse text limit = .ok path →
        path.stops.length = path.selectors.length
          ∧ path.stops.Pairwise (· < ·)
          ∧ (∀ stop ∈ path.stops, ∃ before after : List Char,
              text.toList = before ++ after ∧ stop = byteLength before)
          ∧ path.stops.getLast? = some (byteLength text.toList)
          ∧ ∀ ordinal < path.length, ∃ beginning,
              parse (path.textThrough ordinal) limit = .ok beginning
              ∧ beginning.selectors = path.selectors.take (ordinal + 1)
              ∧ beginning.stops = path.stops.take (ordinal + 1))
      ∧ ∀ (first second : String) (path path' : Path), parse first limit = .ok path →
          parse second limit = .ok path' →
          (second.toList.head? ≠ some '\x7b' → ∃ whole,
              parse (first ++ "." ++ second) limit = .ok whole
              ∧ whole.selectors = path.selectors ++ path'.selectors)
            ∧ (second.toList.head? = some '[' → ∃ whole,
              parse (first ++ second) limit = .ok whole
              ∧ whole.selectors = path.selectors ++ path'.selectors) := by
  refine ⟨fun text path h => ?_, fun first second path path' h h' => ⟨fun hbrace => ?_,
    fun hbracket => ?_⟩⟩
  · obtain ⟨rfl, hderives⟩ := parse_eq_ok.mp h
    refine ⟨by simp [stops, selectors], hderives.pairwise_stops, fun stop hstop => ?_, ?_,
      fun ordinal hordinal => ?_⟩
    · obtain ⟨segment, hsegment, rfl⟩ := List.mem_map.mp hstop
      obtain ⟨ordinal, hordinal, rfl⟩ := List.getElem_of_mem hsegment
      obtain ⟨before, after, htext, hstop, -⟩ := textThrough_of_derives hderives hordinal
      exact ⟨before, after, htext, hstop⟩
    · rw [stops, hderives.getLast?_stops, Nat.zero_add]
    · exact ⟨path.through ordinal, parse_textThrough h hordinal, List.map_take, List.map_take⟩
  · exact ⟨path.join "." path', parse_join (.inl rfl) hbrace h h', selectors_join path "." path'⟩
  · have hbrace : second.toList.head? ≠ some '\x7b' := by
      rw [hbracket]
      decide
    have hjoint : "".toList = ['.'] ∨ "".toList = [] ∧ second.toList.head? = some '[' :=
      .inr ⟨rfl, hbracket⟩
    have hjoin := parse_join hjoint hbrace h h'
    rw [String.append_empty] at hjoin
    exact ⟨path.join "" path', hjoin, selectors_join path "" path'⟩

/-- The points in the key and in the filter are not joints. -/
theorem parse_split_join_at_filter :
    let first : Path := ⟨"a.'b.c'", [⟨.child "a", 1⟩, ⟨.child "b.c", 7⟩]⟩
    let second : Path := ⟨"[\x7bn:'.'\x7d].d", [⟨.elementsMatching [("n", .scalar (.string "."))], 9⟩,
      ⟨.child "d", 11⟩]⟩
    parse first.text = .ok first ∧ parse second.text = .ok second
      ∧ (∃ beginning, parse (first.textThrough 0) = .ok beginning
        ∧ beginning.selectors = [.child "a"] ∧ beginning.stops = [1])
      ∧ ∃ whole, parse (first.text ++ second.text) = .ok whole
        ∧ whole.selectors = first.selectors ++ second.selectors := by
  intro first second
  have hfirst : parse first.text = .ok first := by cbv
  have hsecond : parse second.text = .ok second := by cbv
  obtain ⟨hsplit, hjoin⟩ := parse_split_join Literal.defaultLimit
  obtain ⟨-, -, -, -, hbeginnings⟩ := hsplit first.text first hfirst
  obtain ⟨-, hadjacent⟩ := hjoin first.text second.text first second hfirst hsecond
  exact ⟨hfirst, hsecond, hbeginnings 0 Nat.two_pos, hadjacent (by cbv)⟩

end Path

end TreeQuery
