import Mathlib
import TreeQuery.Proofs.Literal.Completion
import TreeQuery.Proofs.Path.Parsing

/-!
# Completing paths

Where a path is refused, the text before the error is the beginning of a path, under the
same limit on open containers (`parse_error_completes`).  The same holds of literals.

After a selector the path may simply end, and after a point a key can follow.  An open
bracket can be closed, and so can an open quote or filter.  A filter that is refused at
its brace can be left out.
-/

namespace TreeQuery.Path

open Reader Cursor Literal

variable {limit : Nat} {c : Cursor}

/-! ## Filters, keys and indices -/

theorem fails_readFilter (limit : Nat) (c : Cursor) :
    FailsAfter c (NilOrBegins (CompoundText limit)) (readFilter limit c) :=
  fails_fromOutside (fails_compoundWithin limit limit ⟨c, 0⟩)

theorem keyText_a : KeyText ['a'] (String.ofList ['a']) :=
  .bare (by simp) (by simp [isKeyChar]) (by simp)

/-- A bare key is a selector. -/
theorem begins_selector (limit : Nat) (first : Bool) : Begins (SelectorText limit first) [] :=
  ⟨['a'], _, .child keyText_a⟩

theorem fails_readBareKey : FailsAfter c (· = []) (readBareKey c) := by
  refine fails_afterRun fun word c₁ hpass => ?_
  split
  · trivial
  · next hnil =>
    obtain rfl : word = [] := Decidable.of_not_not hnil
    obtain rfl := passes_nil.mp hpass
    exact fails_afterPeek (fails_fail _)

theorem fails_readAfterKey {first : Bool} {key : List Char} {name : String}
    (hkey : KeyText key name) :
    FailsAfter c (fun text => Begins (SelectorText limit first) (key ++ text))
      (readAfterKey limit name c) := by
  refine fails_afterPeek ?_
  split
  · refine ((fails_readFilter limit c).map _).imp fun text htext => ?_
    rcases htext with rfl | htext
    · exact ⟨[], _, by simpa using .child hkey⟩
    · obtain ⟨more, pattern, hpattern⟩ := htext
      exact ⟨more, _, by simpa using .childMatching hkey hpattern⟩
  · trivial

theorem fails_readIndex : FailsAfter c (· = []) (readIndex c) := by
  have hinteger := @fails_readInteger c
  unfold readIndex
  generalize readInteger c = outcome at hinteger
  split
  · exact hinteger
  · exact hinteger

/-! ## Selectors -/

theorem fails_readInside (limit : Nat) (c : Cursor) :
    FailsAfter c (Begins (IndexText limit)) (readInside limit c) := by
  have hnil : Begins (IndexText limit) [] := ⟨[], _, .elements⟩
  rw [readInside_of_head rfl]
  split
  · exact (fails_fail _).of_nil hnil
  · split
    · exact ((fails_readFilter limit c).map _).ofNilOrBegins hnil
        fun hpattern => ⟨_, .elementsMatching hpattern⟩
    · split
      · trivial
      · exact (fails_readIndex.map _).of_nil hnil

theorem fails_readBrackets (first : Bool) :
    FailsAfter c (Begins (SelectorText limit first)) (readBrackets limit c) := by
  refine FailsAfter.bind ((fails_expect '[').of_nil (begins_selector limit first))
    fun _ c₁ hopen => ?_
  refine FailsAfter.passed ?_ (expect_eq_ok.mp hopen)
  refine FailsAfter.bind ((fails_readInside limit c₁).imp fun text htext => ?_)
    fun selector c₂ hinside => ?_
  · obtain ⟨more, selector, hselector⟩ := htext
    have hindex : SelectorText limit first _ selector := .index hselector
    exact ⟨more ++ [']'], selector, by simpa using hindex⟩
  obtain ⟨text, htext, hpass⟩ := readInside_takes hinside
  refine FailsAfter.passed (((fails_expect ']').map _).of_nil ?_) hpass
  have hindex : SelectorText limit first _ selector := .index htext
  exact ⟨[']'], selector, by simpa using hindex⟩

theorem fails_readSelector (limit : Nat) (first : Bool) (c : Cursor) :
    FailsAfter c (Begins (SelectorText limit first)) (readSelector limit first c) := by
  have hnil := begins_selector limit first
  rw [readSelector_of_head rfl]
  split
  · split
    · next hfirst =>
      subst hfirst
      exact ((fails_readFilter limit c).map _).ofNilOrBegins hnil
        fun hpattern => ⟨_, .rootMatching hpattern⟩
    · exact (fails_fail _).of_nil hnil
  · split
    · exact fails_readBrackets first
    · split
      · refine FailsAfter.bind (fails_readQuoted.imp fun text htext => ?_) fun name c₁ hquoted => ?_
        · exact htext.imp fun h => ⟨_, _, .child (.quoted h)⟩
        · obtain ⟨key, hkey, hpass⟩ := readQuoted_eq_ok.mp hquoted
          exact (fails_readAfterKey (.quoted hkey)).passed hpass
      · next hquote =>
        refine FailsAfter.bind (fails_readBareKey.of_nil hnil) fun name c₁ hbare => ?_
        obtain ⟨word, hne, hall, rfl, hpass, -⟩ := readBareKey_eq_ok.mp hbare
        have hhead : word.head? ≠ some '\'' := by
          intro hword
          refine hquote ?_
          rw [hpass.1, List.head?_append, hword]
          rfl
        exact (fails_readAfterKey (.bare hne hall hhead)).passed hpass

/-! ## Whole paths -/

theorem fails_readJoint : FailsAfter c (· = []) (readJoint c) := by
  rw [readJoint_of_head rfl]
  split
  · trivial
  · split
    · trivial
    · exact (fails_expect '.').map _

/-- The path may end before a bracket.  If an error comes after the bracket, another
selector has begun with it. -/
theorem begins_adjacent {first : Bool} {start : Nat} {text tail rest : List Char}
    {selector : Selector} (htext : SelectorText limit first text selector)
    (hnext : rest.head? = some '[' ∨ rest.head? = some '\x7b')
    (htail : Begins (SegmentsText limit false (start + Text.byteLength text)) tail)
    (hwithin : tail <+: rest) : Begins (SegmentsText limit first start) (text ++ tail) := by
  cases tail with
  | nil => exact ⟨[], _, by simpa using .last htext⟩
  | cons d tail =>
      obtain ⟨more, segments, hsegments⟩ := htail
      obtain ⟨after, hafter⟩ := hwithin
      have hhead : rest.head? = some d := by simp [← hafter]
      -- A brace cannot follow, since a filter alone comes first only.
      have hbracket : d = '[' := by
        obtain ⟨e, he, hbrace⟩ := hsegments.head?
        obtain rfl : d = e := Option.some.inj he
        rcases hnext with hnext | hnext
        · exact Option.some.inj (hhead.symm.trans hnext)
        · cases hbrace (Option.some.inj (hhead.symm.trans hnext))
      subst hbracket
      exact ⟨more, _, by simpa using .adjacent htext rfl hsegments⟩

theorem fails_readSegments (limit start : Nat) :
    ∀ (fuel : Nat) (first : Bool) (offset : Nat) (c : Cursor),
      FailsAfter c (Begins (SegmentsText limit first offset))
        (readSegments limit start first fuel c)
  | 0, first, offset, c => by
      obtain ⟨more, selector, hselector⟩ := begins_selector limit first
      exact (fails_fail _).of_nil ⟨more, _, .last hselector⟩
  | fuel + 1, first, offset, c => by
      simp only [readSegments]
      refine FailsAfter.bind ((fails_readSelector limit first c).imp fun text htext => ?_)
        fun selector c₁ hselector => ?_
      · exact htext.imp fun h => ⟨_, _, .last h⟩
      obtain ⟨text, htext, hpass⟩ := readSelector_takes hselector
      refine FailsAfter.passed (failsAfter_of_ok (get_eq_ok.mpr ⟨rfl, rfl⟩) ?_) hpass
      refine FailsAfter.bind (fails_readJoint.of_nil ?_) fun more c₂ hjoint => ?_
      · exact ⟨[], _, by simpa using .last htext⟩
      cases more with
      | false => trivial
      | true =>
          rw [if_pos rfl]
          rcases readJoint_eq_ok_true.mp hjoint with hpoint | ⟨rfl, hnext⟩
          · let next := offset + Text.byteLength (text ++ ['.'])
            have hrest := fails_readSegments limit start fuel false next c₂
            refine FailsAfter.passed ((hrest.map _).imp fun tail htail => ?_) hpoint
            obtain ⟨more, segments, hsegments⟩ := htail
            have hwhole : SegmentsText limit first offset _ _ := .point htext hsegments
            exact ⟨more, _, by simpa using hwhole⟩
          · let next := offset + Text.byteLength text
            have hrest := fails_readSegments limit start fuel false next c₂
            refine (hrest.map _).within.imp fun tail htail => ?_
            exact begins_adjacent htext hnext htail.1 htail.2

theorem fails_read (limit : Nat) (c : Cursor) :
    FailsAfter c (Begins (Derives limit)) (read limit c) := by
  refine failsAfter_of_ok (get_eq_ok.mpr ⟨rfl, rfl⟩) ?_
  refine FailsAfter.bind (fails_readSegments limit _ _ true 0 c) fun segments c₁ _ => ?_
  exact failsAfter_of_ok (get_eq_ok.mpr ⟨rfl, rfl⟩) trivial

/-- A text that is refused as a path is the beginning of one up to the error. -/
theorem completes_of_parse_error {text : String} {limit : Nat} {error : SyntaxError}
    (h : parse text limit = .error error) :
    CompletesAt (fun whole => ∃ path, parse whole limit = .ok path) text error.position := by
  have hwhole : FailsAfter (.atStart text.toList) (Begins (Derives limit)) ((do
      let path ← read limit
      if (← peek).isSome then fail .trailingInput else pure path : Reader Path)
        (.atStart text.toList)) := by
    refine FailsAfter.bind (fails_read limit _) fun path c hread => ?_
    obtain ⟨chars, -, hchars, hpass, -⟩ := read_eq_ok.mp hread
    refine FailsAfter.passed (fails_afterPeek ?_) hpass
    split
    · exact (fails_fail _).of_nil ⟨[], _, by simpa using hchars⟩
    · trivial
  unfold parse at h
  dsimp only at h
  split at h
  · cases h
  · next found stop hread =>
    obtain rfl := Except.error.inj h
    rw [hread] at hwhole
    refine completesAt_of_fails hwhole fun chars segments hsegments => ?_
    refine ⟨⟨String.ofList chars, segments⟩, parse_eq_ok.mpr ⟨rfl, ?_⟩⟩
    rwa [String.toList_ofList]

/-- **An error comes no later than the text goes wrong.**  Where a path is refused, the
text before the error is the beginning of a path that is accepted under the same limit on
open containers.  Where a literal is refused, the text before the error is the beginning of
a literal. -/
theorem parse_error_completes :
    (∀ (text : String) (limit : Nat) (error : SyntaxError), parse text limit = .error error →
        CompletesAt (fun whole => ∃ path, parse whole limit = .ok path) text error.position)
      ∧ ∀ (text : String) (error : SyntaxError), Literal.parse text = .error error →
        CompletesAt (fun whole => ∃ value, Literal.parse whole = .ok value) text error.position :=
  ⟨fun _ _ _ => completes_of_parse_error, fun _ _ => Literal.completes_of_parse_error⟩

/-- A path that ends after a backslash in quotes, in a filter with three open containers.
When only two may be open, it is refused before the third.  A literal is refused at a brace
that follows a comma. -/
theorem parse_error_completes_in_quotes :
    let text := "a[\x7bk:[\x7b\"b\":'x\\"
    parse text 3 = .error ⟨.unexpectedEnd .quotedString, 14⟩
      ∧ CompletesAt (fun whole => ∃ path, parse whole 3 = .ok path) text 14
      ∧ parse text 2 = .error ⟨.tooDeep 2, 6⟩
      ∧ CompletesAt (fun whole => ∃ path, parse whole 2 = .ok path) text 6
      ∧ Literal.parse "\x7bk:1,\x7d" = .error ⟨.trailingComma '\x7d', 5⟩
      ∧ CompletesAt (fun whole => ∃ value, Literal.parse whole = .ok value) "\x7bk:1,\x7d" 5 := by
  intro text
  have hquotes : parse text 3 = .error ⟨.unexpectedEnd .quotedString, 14⟩ := by cbv
  have hdeep : parse text 2 = .error ⟨.tooDeep 2, 6⟩ := by cbv
  have hcomma : Literal.parse "\x7bk:1,\x7d" = .error ⟨.trailingComma '\x7d', 5⟩ := by cbv
  obtain ⟨hpath, hliteral⟩ := parse_error_completes
  exact ⟨hquotes, hpath text 3 _ hquotes, hdeep, hpath text 2 _ hdeep,
    hcomma, hliteral _ _ hcomma⟩

end TreeQuery.Path
