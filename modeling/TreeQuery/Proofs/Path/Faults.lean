import Mathlib
import TreeQuery.Proofs.Literal.Faults
import TreeQuery.Proofs.Path.Parsing

/-!
# The faults of paths

Where a text is refused as a path or as a literal, the fault is true of its place
(`parse_error_true`).  The character it names is the one that stands there, and not
the one it asks for.  The text that a missing character or an unfinished construct is
found after has indeed ended.  A limit on open containers is that of the reading.

A filter alone is refused only after a selector, and a selector has at least one
character.  So such a filter is never at the start of the text.
-/

namespace TreeQuery.Path

open Reader Cursor

variable {limit opened : Nat} {c : Cursor}

/-! ## Filters, keys and indices -/

theorem truthful_readFilter (hhead : c.rest.head? = some '\x7b') :
    Truthful limit 0 c (readFilter limit c) := by
  refine Literal.truthful_fromOutside ?_
  exact Literal.truthful_compoundWithin (s := ⟨c, 0⟩) (Nat.zero_add limit) hhead

theorem truthful_readBareKey : Truthful limit opened c (readBareKey c) := by
  refine truthful_afterRun fun word c₁ _ hstops => ?_
  split
  · trivial
  · exact truthful_afterPeek (truthful_fail ⟨rfl, hstops⟩)

theorem truthful_readAfterKey (name : String) :
    Truthful limit 0 c (readAfterKey limit name c) := by
  refine truthful_afterPeek ?_
  split
  · next hhead => exact (truthful_readFilter hhead).map _
  · trivial

/-- What is no integer counts as a fault of the selector. -/
theorem truthful_readIndex : Truthful limit opened c (readIndex c) := by
  unfold readIndex readInteger
  dsimp only
  cases hinteger : Numeral.int64? (c.rest.takeWhile isNumeralChar) with
  | some index => trivial
  | none =>
      refine ⟨[], c.rest, Passes.refl c, String.toList_ofList, ?_⟩
      rw [String.toList_ofList]
      exact hinteger

/-! ## Selectors -/

theorem truthful_readInside : Truthful limit 0 c (readInside limit c) := by
  rw [readInside_of_head rfl]
  split
  · next hend => exact truthful_fail (List.head?_eq_none_iff.mp hend)
  · split
    · next hhead => exact (truthful_readFilter hhead).map _
    · split
      · trivial
      · exact truthful_readIndex.map _

theorem truthful_readBrackets : Truthful limit 0 c (readBrackets limit c) := by
  refine Truthful.bind (truthful_expect '[') fun _ c₁ hopen => ?_
  refine Truthful.after ?_ (expect_eq_ok.mp hopen)
  refine Truthful.bind truthful_readInside fun selector c₂ hinside => ?_
  obtain ⟨text, -, hpass⟩ := readInside_takes hinside
  exact ((truthful_expect ']').map _).after hpass

/-- Some text stands before a selector that is not the first one. -/
theorem truthful_readSelector {first : Bool} {origin : Cursor} {text : List Char}
    (hpass : origin.Passes text c) (hfirst : first = false → text ≠ []) :
    Truthful limit 0 origin (readSelector limit first c) := by
  rw [readSelector_of_head rfl]
  split
  · next hhead =>
    split
    · exact ((truthful_readFilter hhead).map _).after hpass
    · next hlater =>
      exact ⟨text, c.rest, hpass, hfirst (Bool.not_eq_true _ ▸ hlater), hhead⟩
  · refine Truthful.after ?_ hpass
    split
    · exact truthful_readBrackets
    · split
      · refine Truthful.bind truthful_readQuoted fun name c₁ hquoted => ?_
        obtain ⟨key, -, hkeyPass⟩ := readQuoted_eq_ok.mp hquoted
        exact (truthful_readAfterKey name).after hkeyPass
      · refine Truthful.bind truthful_readBareKey fun name c₁ hbare => ?_
        obtain ⟨word, -, -, -, hwordPass, -⟩ := readBareKey_eq_ok.mp hbare
        exact (truthful_readAfterKey name).after hwordPass

/-! ## Whole paths -/

theorem truthful_readJoint : Truthful limit opened c (readJoint c) := by
  rw [readJoint_of_head rfl]
  split
  · trivial
  · split
    · trivial
    · exact (truthful_expect '.').map _

/-- What stands between two selectors is at most a point. -/
theorem passes_of_readJoint {c' : Cursor} (h : readJoint c = .ok true c') :
    ∃ text, c.Passes text c' := by
  rcases readJoint_eq_ok_true.mp h with hpoint | ⟨rfl, -⟩
  · exact ⟨_, hpoint⟩
  · exact ⟨[], Passes.refl c'⟩

/-- The fuel does not run out where it is more than the length of what is left. -/
theorem truthful_readSegments {start : Nat} {origin : Cursor} :
    ∀ (fuel : Nat) (first : Bool) (text : List Char) (c : Cursor), c.rest.length < fuel →
      origin.Passes text c → (first = false → text ≠ []) →
        Truthful limit 0 origin (readSegments limit start first fuel c)
  | 0, _, _, _, hfuel, _, _ => absurd hfuel (Nat.not_lt_zero _)
  | fuel + 1, first, text, c, hfuel, hpass, hfirst => by
      simp only [readSegments]
      refine Truthful.bind (truthful_readSelector hpass hfirst) fun selector c₁ hselector => ?_
      obtain ⟨chars, hchars, hcharsPass⟩ := readSelector_takes hselector
      refine truthful_of_ok (get_eq_ok.mpr ⟨rfl, rfl⟩) ?_
      refine Truthful.bind (truthful_readJoint.after (hpass.append hcharsPass))
        fun more c₂ hjoint => ?_
      cases more with
      | false => trivial
      | true =>
          obtain ⟨joint, hjointPass⟩ := passes_of_readJoint hjoint
          have hread := hcharsPass.append hjointPass
          have hfuel' : c₂.rest.length < fuel := by
            have hlength := congrArg List.length hread.1
            have hpos := List.length_pos_iff.mpr hchars.ne_nil
            simp only [List.length_append] at hlength
            omega
          have hne : text ++ (chars ++ joint) ≠ [] := by simp [hchars.ne_nil]
          exact (truthful_readSegments fuel false _ c₂ hfuel' (hpass.append hread)
            fun _ => hne).map _

theorem truthful_read (limit : Nat) (c : Cursor) : Truthful limit 0 c (read limit c) := by
  refine truthful_of_ok (get_eq_ok.mpr ⟨rfl, rfl⟩) ?_
  refine Truthful.bind (truthful_readSegments _ true [] c (Nat.lt_succ_self _) (Passes.refl c)
    nofun) fun segments c₁ _ => ?_
  exact truthful_of_ok (get_eq_ok.mpr ⟨rfl, rfl⟩) trivial

/-- A path ends here, and a space follows it. -/
def EndsPathText (limit : Nat) (before after : String) : Prop :=
  (∃ path, parse before limit = .ok path) ∧ after.toList.head? = some ' '

/-- The error of a text that is refused as a path is true of the text. -/
theorem trueOf_of_parse_error {text : String} {error : SyntaxError}
    (h : parse text limit = .error error) : error.TrueOf limit (EndsPathText limit) text := by
  unfold parse at h
  dsimp only at h
  split at h
  · cases h
  next found stop hwhole =>
  obtain rfl := Except.error.inj h
  rcases bind_eq_error.mp hwhole with hread | ⟨path, c, hread, hwhole⟩
  · have htrue := truthful_read limit (.atStart text.toList)
    rw [hread] at htrue
    exact htrue.trueOf
  obtain ⟨chars, hname, hchars, hpass, hends⟩ := read_eq_ok.mp hread
  have hpeek : peek c = .ok c.rest.head? c := rfl
  rw [bind_of_ok hpeek] at hwhole
  split at hwhole
  · next hsome =>
    obtain ⟨rfl, rfl⟩ := EStateM.Result.error.inj hwhole
    refine trueOf_of_passes hpass ⟨⟨path, parse_eq_ok.mpr ⟨hname, ?_⟩⟩, ?_⟩
    · rwa [String.toList_ofList]
    · obtain ⟨d, hhead⟩ := Option.isSome_iff_exists.mp hsome
      rw [String.toList_ofList, hhead, hends d hhead]
  · cases hwhole

/-- **Syntax errors are true of the text.**  Where a text is refused as a path, under any limit
on open containers, or as a literal, the error is at a place of the text where its fault is
true.  Text that follows the end of a path starts with a space, and the text before it is a
path under the same limit.  Text that follows a literal is not empty, and the text before it
is a literal. -/
theorem parse_error_true :
    (∀ (text : String) (limit : Nat) (error : SyntaxError), parse text limit = .error error →
        error.TrueOf limit (EndsPathText limit) text)
      ∧ ∀ (text : String) (error : SyntaxError), Literal.parse text = .error error →
        error.TrueOf Literal.defaultLimit Literal.EndsLiteral text :=
  ⟨fun _ _ _ => trueOf_of_parse_error, fun _ _ => Literal.trueOf_of_parse_error⟩

/-- A filter after a key of two bytes, a filter with more open containers than the limit
allows, and text after a path and after a literal. -/
theorem parse_error_true_at_brackets :
    parse "é.\x7ba:1\x7d" = .error ⟨.misplacedRootFilter, 3⟩
      ∧ SyntaxError.TrueOf 512 (EndsPathText 512) "é.\x7ba:1\x7d" ⟨.misplacedRootFilter, 3⟩
      ∧ parse "a[\x7bk:[1]\x7d]" 1 = .error ⟨.tooDeep 1, 5⟩
      ∧ SyntaxError.TrueOf 1 (EndsPathText 1) "a[\x7bk:[1]\x7d]" ⟨.tooDeep 1, 5⟩
      ∧ parse "é x" 0 = .error ⟨.trailingInput, 2⟩
      ∧ SyntaxError.TrueOf 0 (EndsPathText 0) "é x" ⟨.trailingInput, 2⟩
      ∧ Literal.parse "'é' ," = .error ⟨.trailingInput, 5⟩
      ∧ SyntaxError.TrueOf 512 Literal.EndsLiteral "'é' ," ⟨.trailingInput, 5⟩ := by
  have hroot : parse "é.\x7ba:1\x7d" = .error ⟨.misplacedRootFilter, 3⟩ := by cbv
  have hdeep : parse "a[\x7bk:[1]\x7d]" 1 = .error ⟨.tooDeep 1, 5⟩ := by cbv
  have hpath : parse "é x" 0 = .error ⟨.trailingInput, 2⟩ := by cbv
  have hliteral : Literal.parse "'é' ," = .error ⟨.trailingInput, 5⟩ := by cbv
  obtain ⟨hpaths, hliterals⟩ := parse_error_true
  exact ⟨hroot, hpaths _ _ _ hroot, hdeep, hpaths _ _ _ hdeep, hpath, hpaths _ _ _ hpath,
    hliteral, hliterals _ _ hliteral⟩

end TreeQuery.Path
