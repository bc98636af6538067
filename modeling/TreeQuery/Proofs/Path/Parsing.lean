import TreeQuery.Proofs.Literal.Parsing
import TreeQuery.Proofs.Path.Grammar

/-!
# Reading paths and deriving them

A text is read as a path exactly when the grammar derives it, and the segments of
the path are those of the derivation (`parse_eq_ok_iff_derives`).  So a text has
one derivation at most.

Inside a larger text a path ends before a space or at the end of the text
(`readSegments_takes`).  A selector may be followed by one of these, a point or an
opening bracket (`Ends`).  None of them can belong to the selector before it, and
that is why the longest bare key is always the right one.
-/

namespace TreeQuery.Path

open Reader Cursor Text

/-- What may follow a selector. -/
def Ends (rest : List Char) : Prop := ∀ c ∈ rest.head?, c = ' ' ∨ c = '.' ∨ c = '['

theorem Ends.stops_isKeyChar {rest : List Char} (h : Ends rest) : Stops isKeyChar rest := by
  intro c hc
  rcases h c hc with rfl | rfl | rfl
  · decide
  · decide
  · decide

/-! ## Filters, keys and indices -/

theorem readFilter_takes {limit : Nat} {before after : Cursor} {pattern : Compound}
    (h : readFilter limit before = .ok pattern after) :
    ∃ text, Literal.CompoundText limit text pattern ∧ before.Passes text after := by
  unfold readFilter Literal.fromOutside at h
  split at h
  · next found state hread =>
    obtain ⟨rfl, rfl⟩ := EStateM.Result.ok.inj h
    obtain ⟨start, s₁, hget, hread⟩ := bind_eq_ok.mp hread
    obtain ⟨rfl, rfl⟩ := get_eq_ok.mp hget
    obtain ⟨text, htext, hpass, -⟩ := Literal.compoundWithin_takes limit limit hread
    exact ⟨text, htext, hpass⟩
  · cases h

theorem readFilter_accepts {limit : Nat} {before after : Cursor} {text : List Char}
    {pattern : Compound} (h : Literal.CompoundText limit text pattern)
    (hpass : before.Passes text after) : readFilter limit before = .ok pattern after := by
  have hfound : Literal.Yields (fun _ => False) (Literal.compoundWithin limit limit)
      ⟨before, 0⟩ pattern ⟨after, 0⟩ := Literal.compoundWithin_accepts limit limit h hpass rfl
  have hread : Literal.readCompound limit ⟨before, 0⟩ = .ok pattern ⟨after, 0⟩ :=
    bind_eq_ok.mpr ⟨_, _, get_eq_ok.mpr ⟨rfl, rfl⟩, hfound.ok⟩
  unfold readFilter Literal.fromOutside
  rw [hread]

theorem readBareKey_eq_ok {before after : Cursor} {name : String} :
    readBareKey before = .ok name after ↔ ∃ word, word ≠ [] ∧ (∀ c ∈ word, isKeyChar c = true)
      ∧ String.ofList word = name ∧ before.Passes word after ∧ Stops isKeyChar after.rest := by
  simp only [readBareKey, bind_eq_ok]
  constructor
  · rintro ⟨word, middle, hread, h⟩
    obtain ⟨hpass, hall, hstops⟩ := readWhile_eq_ok.mp hread
    split at h
    · next hne =>
      obtain ⟨hname, rfl⟩ := pure_eq_ok.mp h
      exact ⟨word, hne, hall, hname, hpass, hstops⟩
    · obtain ⟨_, _, _, h⟩ := bind_eq_ok.mp h
      exact absurd h fail_ne_ok
  · rintro ⟨word, hne, hall, hname, hpass, hstops⟩
    refine ⟨word, after, readWhile_eq_ok.mpr ⟨hpass, hall, hstops⟩, ?_⟩
    rw [if_pos hne]
    exact pure_eq_ok.mpr ⟨hname, rfl⟩

theorem readAfterKey_takes {limit : Nat} {first : Bool} {key : List Char} {name : String}
    {before after : Cursor} {selector : Selector} (hkey : KeyText key name)
    (h : readAfterKey limit name before = .ok selector after) :
    ∃ text, SelectorText limit first (key ++ text) selector ∧ before.Passes text after := by
  obtain ⟨next, c₁, hpeek, h⟩ := bind_eq_ok.mp h
  obtain ⟨rfl, rfl⟩ := peek_eq_ok.mp hpeek
  split at h
  · obtain ⟨pattern, hfilter, rfl⟩ := map_eq_ok.mp h
    obtain ⟨text, htext, hpass⟩ := readFilter_takes hfilter
    exact ⟨text, .childMatching hkey htext, hpass⟩
  · obtain ⟨rfl, rfl⟩ := pure_eq_ok.mp h
    refine ⟨[], ?_, Passes.refl c₁⟩
    rw [List.append_nil]
    exact .child hkey

theorem readIndex_eq_ok {before after : Cursor} {index : Int64} :
    readIndex before = .ok index after ↔ readInteger before = .ok index after := by
  unfold readIndex
  split
  · next heq => simp [heq]
  · rfl

/-! ## Selectors -/

/-- The first character after the opening bracket decides what is selected. -/
theorem readInside_of_head {limit : Nat} {c : Cursor} {next : Option Char}
    (hnext : c.rest.head? = next) :
    readInside limit c
      = (if next = none then fail (.unexpectedEnd .listIndex)
        else if next = some '\x7b' then do return .elementsMatching (← readFilter limit)
        else if next = some ']' then pure .elements
        else do return .element (← readIndex) : Reader Selector) c := by
  have hpeek : peek c = .ok next c := peek_eq_ok.mpr ⟨hnext.symm, rfl⟩
  rw [readInside, bind_of_ok hpeek]
  refine congrFun ?_ _
  split
  · rfl
  · rfl
  · rfl
  · next next hbrace hclose =>
    rw [if_neg (Option.some_ne_none next), if_neg fun h => hbrace (Option.some.inj h),
      if_neg fun h => hclose (Option.some.inj h)]

theorem readInside_takes {limit : Nat} {before after : Cursor} {selector : Selector}
    (h : readInside limit before = .ok selector after) :
    ∃ text, IndexText limit text selector ∧ before.Passes text after := by
  rw [readInside_of_head rfl] at h
  split at h
  · exact absurd h fail_ne_ok
  · split at h
    · obtain ⟨pattern, hfilter, rfl⟩ := map_eq_ok.mp h
      obtain ⟨text, htext, hpass⟩ := readFilter_takes hfilter
      exact ⟨text, .elementsMatching htext, hpass⟩
    · split at h
      · obtain ⟨rfl, rfl⟩ := pure_eq_ok.mp h
        exact ⟨[], .elements, Passes.refl before⟩
      · obtain ⟨index, hindex, rfl⟩ := map_eq_ok.mp h
        obtain ⟨text, htext, hpass, -⟩ := readInteger_eq_ok.mp (readIndex_eq_ok.mp hindex)
        exact ⟨text, .element htext, hpass⟩

theorem readBrackets_eq_ok {limit : Nat} {before after : Cursor} {selector : Selector} :
    readBrackets limit before = .ok selector after
      ↔ ∃ c₁ c₂, before.Passes ['['] c₁ ∧ readInside limit c₁ = .ok selector c₂
          ∧ c₂.Passes [']'] after := by
  simp only [readBrackets, bind_eq_ok]
  constructor
  · rintro ⟨_, c₁, hopen, found, c₂, hinside, _, c₃, hclose, h⟩
    obtain ⟨rfl, rfl⟩ := pure_eq_ok.mp h
    exact ⟨c₁, c₂, expect_eq_ok.mp hopen, hinside, expect_eq_ok.mp hclose⟩
  · rintro ⟨c₁, c₂, hopen, hinside, hclose⟩
    exact ⟨(), c₁, expect_eq_ok.mpr hopen, selector, c₂, hinside, (), after,
      expect_eq_ok.mpr hclose, pure_eq_ok.mpr ⟨rfl, rfl⟩⟩

/-- The first character decides what kind of selector is read. -/
theorem readSelector_of_head {limit : Nat} {first : Bool} {c : Cursor} {next : Option Char}
    (hnext : c.rest.head? = next) :
    readSelector limit first c
      = (if next = some '\x7b' then
          if first then return .rootMatching (← readFilter limit) else fail .misplacedRootFilter
        else if next = some '[' then readBrackets limit
        else if next.any isQuote then do readAfterKey limit (← readQuoted)
        else do readAfterKey limit (← readBareKey) : Reader Selector) c := by
  have hpeek : peek c = .ok next c := peek_eq_ok.mpr ⟨hnext.symm, rfl⟩
  rw [readSelector, bind_of_ok hpeek]
  refine congrFun ?_ _
  split
  · rfl
  · rfl
  · next hbrace hbracket => rw [if_neg fun h => hbrace h, if_neg fun h => hbracket h]

theorem readSelector_takes {limit : Nat} {first : Bool} {before after : Cursor}
    {selector : Selector} (h : readSelector limit first before = .ok selector after) :
    ∃ text, SelectorText limit first text selector ∧ before.Passes text after := by
  rw [readSelector_of_head rfl] at h
  split at h
  · split at h
    · next hfirst =>
      obtain ⟨pattern, hfilter, rfl⟩ := map_eq_ok.mp h
      obtain ⟨text, htext, hpass⟩ := readFilter_takes hfilter
      rw [hfirst]
      exact ⟨text, .rootMatching htext, hpass⟩
    · exact absurd h fail_ne_ok
  · split at h
    · obtain ⟨c₁, c₂, hopen, hinside, hclose⟩ := readBrackets_eq_ok.mp h
      obtain ⟨text, htext, hpass⟩ := readInside_takes hinside
      exact ⟨_, .index htext, hopen.append (hpass.append hclose)⟩
    · split at h
      · obtain ⟨name, c, hquoted, h⟩ := bind_eq_ok.mp h
        obtain ⟨key, hkey, hkeyPass⟩ := readQuoted_eq_ok.mp hquoted
        obtain ⟨text, htext, hpass⟩ := readAfterKey_takes (.quoted hkey) h
        exact ⟨key ++ text, htext, hkeyPass.append hpass⟩
      · next hquote =>
        obtain ⟨name, c, hbare, h⟩ := bind_eq_ok.mp h
        obtain ⟨word, hne, hall, rfl, hwordPass, -⟩ := readBareKey_eq_ok.mp hbare
        have hhead : word.head? ≠ some '\'' := by
          intro hword
          refine hquote ?_
          rw [hwordPass.1, List.head?_append, hword]
          rfl
        obtain ⟨text, htext, hpass⟩ := readAfterKey_takes (.bare hne hall hhead) h
        exact ⟨word ++ text, htext, hwordPass.append hpass⟩

/-- A key is read whole where a filter or the end of the selector follows. -/
theorem readSelector_of_key {limit : Nat} {first : Bool} {key : List Char} {name : String}
    {before middle after : Cursor} {selector : Selector} (hkey : KeyText key name)
    (hpass : before.Passes key middle) (hstops : Stops isKeyChar middle.rest)
    (hafter : readAfterKey limit name middle = .ok selector after) :
    readSelector limit first before = .ok selector after := by
  obtain ⟨c, hhead, hbrace, hbracket⟩ := hkey.head?
  have hnext : before.rest.head? = some c := by
    rw [hpass.1, List.head?_append, hhead]
    rfl
  rw [readSelector_of_head hnext, if_neg fun h => hbrace (Option.some.inj h),
    if_neg fun h => hbracket (Option.some.inj h)]
  cases hkey with
  | quoted hquoted =>
      have hquote : (some c).any isQuote = true := by
        obtain @⟨quote, rest, content, hquote, hrest⟩ := hquoted
        obtain rfl := Option.some.inj hhead
        exact hquote
      rw [if_pos hquote]
      exact bind_eq_ok.mpr ⟨name, middle, readQuoted_eq_ok.mpr ⟨key, hquoted, hpass⟩, hafter⟩
  | bare hne hall hsingle =>
      have hc : isKeyChar c = true := hall c (List.mem_of_head? hhead)
      have hquote : ¬(some c).any isQuote = true := by
        rw [Option.any_some, isQuote_eq_true]
        rintro (rfl | rfl)
        · exact absurd hc (by decide)
        · exact hsingle hhead
      rw [if_neg hquote]
      exact bind_eq_ok.mpr ⟨_, middle,
        readBareKey_eq_ok.mpr ⟨key, hne, hall, rfl, hpass, hstops⟩, hafter⟩

/-- A closing bracket follows the text of an index. -/
theorem readInside_accepts {limit : Nat} {text : List Char} {before after : Cursor}
    {selector : Selector} (h : IndexText limit text selector) (hpass : before.Passes text after)
    (hafter : after.rest.head? = some ']') : readInside limit before = .ok selector after := by
  cases h with
  | elements =>
      obtain rfl := passes_nil.mp hpass
      rw [readInside_of_head hafter, if_neg (by decide), if_neg (by decide), if_pos rfl]
      exact pure_eq_ok.mpr ⟨rfl, rfl⟩
  | element hindex =>
      have hchars := hindex.isNumeralChar
      have hstops : Stops isNumeralChar after.rest := by
        intro c hc
        obtain rfl := Option.some.inj (hafter.symm.trans hc)
        decide
      have hread : readIndex before = .ok _ after :=
        readIndex_eq_ok.mpr (readInteger_eq_ok.mpr ⟨text, hindex, hpass, hstops⟩)
      cases text with
      | nil => exact absurd rfl hindex.ne_nil
      | cons c rest =>
          have hc : isNumeralChar c = true := hchars c (List.mem_cons_self ..)
          have hhead : before.rest.head? = some c := by
            rw [hpass.1]
            rfl
          have hne : ∀ {d : Char}, isNumeralChar d = false → some c ≠ some d := by
            rintro d hd heq
            obtain rfl := Option.some.inj heq
            rw [hd] at hc
            cases hc
          rw [readInside_of_head hhead, if_neg (Option.some_ne_none c), if_neg (hne (by decide)),
            if_neg (hne (by decide))]
          exact map_eq_ok.mpr ⟨_, hread, rfl⟩
  | elementsMatching hfilter =>
      have hhead : before.rest.head? = some '\x7b' := by
        rw [hpass.1, List.head?_append, hfilter.head?]
        rfl
      rw [readInside_of_head hhead, if_neg (by decide), if_pos rfl]
      exact map_eq_ok.mpr ⟨_, readFilter_accepts hfilter hpass, rfl⟩

/-- A selector is read whole before anything that may follow it. -/
theorem readSelector_accepts {limit : Nat} {first : Bool} {text : List Char}
    {before after : Cursor} {selector : Selector} (h : SelectorText limit first text selector)
    (hpass : before.Passes text after) (hends : Ends after.rest) :
    readSelector limit first before = .ok selector after := by
  cases h with
  | child hkey =>
      refine readSelector_of_key hkey hpass hends.stops_isKeyChar ?_
      refine bind_eq_ok.mpr ⟨_, after, peek_eq_ok.mpr ⟨rfl, rfl⟩, ?_⟩
      have hbrace : after.rest.head? ≠ some '\x7b' := by
        intro hhead
        rcases hends _ hhead with heq | heq | heq
        · exact absurd heq (by decide)
        · exact absurd heq (by decide)
        · exact absurd heq (by decide)
      rw [if_neg hbrace]
      exact pure_eq_ok.mpr ⟨rfl, rfl⟩
  | @childMatching _ key filter name pattern hkey hfilter =>
      obtain ⟨middle, hkeyPass, hfilterPass⟩ := passes_append.mp hpass
      have hhead : middle.rest.head? = some '\x7b' := by
        rw [hfilterPass.1, List.head?_append, hfilter.head?]
        rfl
      have hstops : Stops isKeyChar middle.rest := by
        intro c hc
        obtain rfl := Option.some.inj (hhead.symm.trans hc)
        decide
      refine readSelector_of_key hkey hkeyPass hstops ?_
      refine bind_eq_ok.mpr ⟨_, middle, peek_eq_ok.mpr ⟨rfl, rfl⟩, ?_⟩
      rw [if_pos hhead]
      exact map_eq_ok.mpr ⟨pattern, readFilter_accepts hfilter hfilterPass, rfl⟩
  | @index _ text _ hindex =>
      obtain ⟨c₁, hopen, hrest⟩ := passes_cons.mp hpass
      obtain ⟨c₂, hinside, hclose⟩ := passes_append.mp hrest
      have hhead : before.rest.head? = some '[' := by
        rw [hopen.1]
        rfl
      have hafter : c₂.rest.head? = some ']' := by
        rw [hclose.1]
        rfl
      rw [readSelector_of_head hhead, if_neg (by decide), if_pos rfl]
      exact readBrackets_eq_ok.mpr ⟨c₁, c₂, hopen, readInside_accepts hindex hinside hafter, hclose⟩
  | rootMatching hfilter =>
      have hhead : before.rest.head? = some '\x7b' := by
        rw [hpass.1, List.head?_append, hfilter.head?]
        rfl
      rw [readSelector_of_head hhead, if_pos rfl, if_pos rfl]
      exact map_eq_ok.mpr ⟨_, readFilter_accepts hfilter hpass, rfl⟩

/-! ## Whole paths -/

/-- What may follow a whole path. -/
def EndsPath (rest : List Char) : Prop := ∀ c ∈ rest.head?, c = ' '

theorem readJoint_of_head {c : Cursor} {next : Option Char} (hnext : c.rest.head? = next) :
    readJoint c
      = (if next = none ∨ next = some ' ' then pure false
        else if next = some '[' ∨ next = some '\x7b' then pure true
        else do
          expect '.'
          pure true : Reader Bool) c := by
  have hpeek : peek c = .ok next c := peek_eq_ok.mpr ⟨hnext.symm, rfl⟩
  rw [readJoint, bind_of_ok hpeek]
  refine congrFun ?_ _
  split
  · rfl
  · rfl
  · rfl
  · rfl
  · next next hspace hbracket hbrace =>
    simp only [reduceCtorEq, Option.some.injEq, false_or]
    rw [if_neg fun h => hspace h, if_neg fun h => h.elim hbracket hbrace]

theorem readJoint_eq_ok_false {before after : Cursor} :
    readJoint before = .ok false after ↔ after = before ∧ EndsPath before.rest := by
  constructor
  · intro h
    rw [readJoint_of_head rfl] at h
    split at h
    · next hnext =>
      refine ⟨(pure_eq_ok.mp h).2.symm, fun c hc => ?_⟩
      rcases hnext with hnext | hnext
      · cases hnext.symm.trans hc
      · exact (Option.some.inj (hnext.symm.trans hc)).symm
    · split at h
      · cases (pure_eq_ok.mp h).1
      · obtain ⟨_, _, _, h⟩ := bind_eq_ok.mp h
        cases (pure_eq_ok.mp h).1
  · rintro ⟨rfl, hends⟩
    have hnext : after.rest.head? = none ∨ after.rest.head? = some ' ' := by
      cases hhead : after.rest.head? with
      | none => exact .inl rfl
      | some c => exact .inr (congrArg some (hends c hhead))
    rw [readJoint_of_head rfl, if_pos hnext]
    exact pure_eq_ok.mpr ⟨rfl, rfl⟩

/-- A path goes on after a point, and where a bracket or a brace follows. -/
theorem readJoint_eq_ok_true {before after : Cursor} :
    readJoint before = .ok true after ↔ before.Passes ['.'] after
      ∨ after = before ∧ (before.rest.head? = some '[' ∨ before.rest.head? = some '\x7b') := by
  constructor
  · intro h
    rw [readJoint_of_head rfl] at h
    split at h
    · cases (pure_eq_ok.mp h).1
    · split at h
      · next hnext => exact .inr ⟨(pure_eq_ok.mp h).2.symm, hnext⟩
      · obtain ⟨_, hexpect, -⟩ := map_eq_ok.mp h
        exact .inl (expect_eq_ok.mp hexpect)
  · rintro (hpoint | ⟨rfl, hnext⟩)
    · have hhead : before.rest.head? = some '.' := by
        rw [hpoint.1]
        rfl
      rw [readJoint_of_head hhead, if_neg (by decide), if_neg (by decide)]
      exact map_eq_ok.mpr ⟨(), expect_eq_ok.mpr hpoint, rfl⟩
    · have hnone : ¬(after.rest.head? = none ∨ after.rest.head? = some ' ') := by
        rcases hnext with hnext | hnext
        · rw [hnext]
          decide
        · rw [hnext]
          decide
      rw [readJoint_of_head rfl, if_neg hnone, if_pos hnext]
      exact pure_eq_ok.mpr ⟨rfl, rfl⟩

/-- Bytes are counted from the start of the path. -/
theorem position_of_passes {start offset : Nat} {before after : Cursor} {text : List Char}
    (hpass : before.Passes text after) (hposition : before.position = start + offset) :
    after.position = start + (offset + byteLength text) := by
  rw [hpass.2, hposition, Nat.add_assoc]

/-- The loop takes the text of a path and ends where a path may end. -/
theorem readSegments_takes {limit start : Nat} :
    ∀ {fuel offset : Nat} {first : Bool} {before after : Cursor} {segments : List Segment},
      readSegments limit start first fuel before = .ok segments after →
      before.position = start + offset →
        ∃ text, SegmentsText limit first offset text segments ∧ before.Passes text after
          ∧ EndsPath after.rest
  | 0, _, _, _, _, _, h, _ => absurd h fail_ne_ok
  | fuel + 1, offset, first, before, after, segments, h, hposition => by
      simp only [readSegments, bind_eq_ok] at h
      obtain ⟨selector, c₁, hselector, cursor, c₂, hget, more, c₃, hjoint, h⟩ := h
      obtain ⟨rfl, rfl⟩ := get_eq_ok.mp hget
      obtain ⟨text, htext, hpass⟩ := readSelector_takes hselector
      have hstop := position_of_passes hpass hposition
      rw [hstop, Nat.add_sub_cancel_left] at h
      cases more with
      | false =>
          obtain ⟨rfl, hends⟩ := readJoint_eq_ok_false.mp hjoint
          obtain ⟨rfl, rfl⟩ := pure_eq_ok.mp h
          exact ⟨text, .last htext, hpass, hends⟩
      | true =>
          rw [if_pos rfl] at h
          obtain ⟨rest, hrest, rfl⟩ := map_eq_ok.mp h
          rcases readJoint_eq_ok_true.mp hjoint with hpoint | ⟨rfl, hnext⟩
          · have hoffset := position_of_passes (hpass.append hpoint) hposition
            obtain ⟨tail, htail, htailPass, hends⟩ := readSegments_takes hrest hoffset
            refine ⟨text ++ '.' :: tail, .point htext htail, ?_, hends⟩
            exact hpass.append (hpoint.append htailPass)
          · obtain ⟨tail, htail, htailPass, hends⟩ := readSegments_takes hrest hstop
            refine ⟨text ++ tail, .adjacent htext ?_ htail, hpass.append htailPass, hends⟩
            -- A brace cannot follow, since a filter alone comes first only.
            obtain ⟨c, hhead, hbrace⟩ := htail.head?
            rw [htailPass.1, List.head?_append, hhead] at hnext
            rcases hnext with hnext | hnext
            · exact hhead.trans hnext
            · cases hbrace (Option.some.inj hnext)

/-- One selector is read, and then the others after what joins them. -/
theorem readSegments_of_joint {limit start offset fuel : Nat} {first : Bool}
    {before c₁ c₂ after : Cursor} {selector : Selector} {segments : List Segment}
    (hselector : readSelector limit first before = .ok selector c₁)
    (hstop : c₁.position = start + offset) (hjoint : readJoint c₁ = .ok true c₂)
    (hrest : readSegments limit start false fuel c₂ = .ok segments after) :
    readSegments limit start first (fuel + 1) before
      = .ok (⟨selector, offset⟩ :: segments) after := by
  simp only [readSegments, bind_eq_ok]
  refine ⟨selector, c₁, hselector, c₁, c₁, get_eq_ok.mpr ⟨rfl, rfl⟩, true, c₂, hjoint, ?_⟩
  rw [if_pos rfl, hstop, Nat.add_sub_cancel_left]
  exact map_eq_ok.mpr ⟨segments, hrest, rfl⟩

/-- The fuel is enough when it is more than the length of the text. -/
theorem readSegments_accepts {limit start offset : Nat} {first : Bool} {text : List Char}
    {segments : List Segment} (h : SegmentsText limit first offset text segments) :
    ∀ {fuel : Nat} {before after : Cursor}, text.length < fuel → before.position = start + offset →
      before.Passes text after → EndsPath after.rest →
        readSegments limit start first fuel before = .ok segments after := by
  induction h with
  | @last first offset text selector htext =>
      intro fuel before after hfuel hposition hpass hends
      obtain ⟨fuel, rfl⟩ := Nat.exists_eq_succ_of_ne_zero (Nat.ne_zero_of_lt hfuel)
      have hselector : readSelector limit first before = .ok selector after :=
        readSelector_accepts htext hpass fun c hc => .inl (hends c hc)
      simp only [readSegments, bind_eq_ok]
      refine ⟨selector, after, hselector, after, after, get_eq_ok.mpr ⟨rfl, rfl⟩, false, after,
        readJoint_eq_ok_false.mpr ⟨rfl, hends⟩, ?_⟩
      rw [position_of_passes hpass hposition, Nat.add_sub_cancel_left]
      exact pure_eq_ok.mpr ⟨rfl, rfl⟩
  | @point first offset text rest selector segments htext hrest ih =>
      intro fuel before after hfuel hposition hpass hends
      obtain ⟨fuel, rfl⟩ := Nat.exists_eq_succ_of_ne_zero (Nat.ne_zero_of_lt hfuel)
      obtain ⟨c₁, htextPass, hpass⟩ := passes_append.mp hpass
      obtain ⟨c₂, hpoint, hrestPass⟩ := passes_cons.mp hpass
      have hfuel' : rest.length < fuel := by
        simp only [List.length_append, List.length_cons] at hfuel
        omega
      have hnext : Ends c₁.rest := by
        intro c hc
        rw [hpoint.1] at hc
        exact .inr (.inl (Option.some.inj hc).symm)
      have hoffset := position_of_passes (htextPass.append hpoint) hposition
      exact readSegments_of_joint (readSelector_accepts htext htextPass hnext)
        (position_of_passes htextPass hposition) (readJoint_eq_ok_true.mpr (.inl hpoint))
        (ih hfuel' hoffset hrestPass hends)
  | @adjacent first offset text rest selector segments htext hbracket hrest ih =>
      intro fuel before after hfuel hposition hpass hends
      obtain ⟨fuel, rfl⟩ := Nat.exists_eq_succ_of_ne_zero (Nat.ne_zero_of_lt hfuel)
      obtain ⟨c₁, htextPass, hrestPass⟩ := passes_append.mp hpass
      have hfuel' : rest.length < fuel := by
        have hlength := List.length_pos_iff.mpr htext.ne_nil
        simp only [List.length_append] at hfuel
        omega
      have hhead : c₁.rest.head? = some '[' := by
        rw [hrestPass.1, List.head?_append, hbracket]
        rfl
      have hnext : Ends c₁.rest := fun c hc =>
        .inr (.inr (Option.some.inj (hhead.symm.trans hc)).symm)
      have hoffset := position_of_passes htextPass hposition
      exact readSegments_of_joint (readSelector_accepts htext htextPass hnext) hoffset
        (readJoint_eq_ok_true.mpr (.inr ⟨rfl, .inl hhead⟩)) (ih hfuel' hoffset hrestPass hends)

/-- A path is read exactly where a text of the grammar ends before a space or at the
end of the text. -/
theorem read_eq_ok {limit : Nat} {before after : Cursor} {path : Path} :
    read limit before = .ok path after
      ↔ ∃ text, path.text = String.ofList text ∧ Derives limit text path.segments
          ∧ before.Passes text after ∧ EndsPath after.rest := by
  simp only [read, bind_eq_ok]
  constructor
  · rintro ⟨start, c₁, hstart, segments, c₂, hsegments, stop, c₃, hstop, h⟩
    obtain ⟨rfl, rfl⟩ := get_eq_ok.mp hstart
    obtain ⟨rfl, rfl⟩ := get_eq_ok.mp hstop
    obtain ⟨rfl, rfl⟩ := pure_eq_ok.mp h
    obtain ⟨text, htext, hpass, hends⟩ := readSegments_takes hsegments (Nat.add_zero _).symm
    exact ⟨text, congrArg String.ofList hpass.textTo, htext, hpass, hends⟩
  · rintro ⟨text, hname, htext, hpass, hends⟩
    have hfuel : text.length < before.rest.length + 1 := by
      rw [hpass.1, List.length_append]
      omega
    refine ⟨before, before, get_eq_ok.mpr ⟨rfl, rfl⟩, path.segments, after,
      readSegments_accepts htext hfuel rfl hpass hends, after, after, get_eq_ok.mpr ⟨rfl, rfl⟩, ?_⟩
    rw [hpass.textTo, ← hname]
    exact pure_eq_ok.mpr ⟨rfl, rfl⟩

theorem parse_eq_ok_iff_read {text : String} {limit : Nat} {path : Path} :
    parse text limit = .ok path
      ↔ ∃ after, read limit (.atStart text.toList) = .ok path after ∧ after.rest = [] := by
  have hwhole : ∀ {after : Cursor}, (do
        let path ← read limit
        if (← peek).isSome then fail .trailingInput else pure path : Reader Path)
          (.atStart text.toList) = .ok path after
      ↔ read limit (.atStart text.toList) = .ok path after ∧ after.rest = [] := by
    intro after
    simp only [bind_eq_ok]
    constructor
    · rintro ⟨found, c₁, hread, next, c₂, hpeek, h⟩
      obtain ⟨rfl, rfl⟩ := peek_eq_ok.mp hpeek
      split at h
      · exact absurd h fail_ne_ok
      · next hnext =>
        obtain ⟨rfl, rfl⟩ := pure_eq_ok.mp h
        rw [Option.not_isSome_iff_eq_none, List.head?_eq_none_iff] at hnext
        exact ⟨hread, hnext⟩
    · rintro ⟨hread, hrest⟩
      refine ⟨path, after, hread, _, after, peek_eq_ok.mpr ⟨rfl, rfl⟩, ?_⟩
      rw [hrest]
      exact pure_eq_ok.mpr ⟨rfl, rfl⟩
  constructor
  · intro h
    unfold parse at h
    dsimp only at h
    split at h
    · next found after hread =>
      obtain rfl := Except.ok.inj h
      exact ⟨after, hwhole.mp hread⟩
    · cases h
  · rintro ⟨after, hread⟩
    unfold parse
    dsimp only
    rw [hwhole.mpr hread]

/-- The grammar derives the same text in one way only, because the reader finds its
segments from the text. -/
theorem Derives.unique {limit : Nat} {text : List Char} {segments segments' : List Segment}
    (h : Derives limit text segments) (h' : Derives limit text segments') :
    segments = segments' := by
  have hpass : (Cursor.atStart text).Passes text ⟨byteLength text, []⟩ :=
    ⟨(List.append_nil text).symm, (Nat.zero_add _).symm⟩
  have hread : ∀ {found : List Segment}, Derives limit text found →
      read limit (.atStart text) = .ok ⟨String.ofList text, found⟩ ⟨byteLength text, []⟩ :=
    fun hfound => read_eq_ok.mpr ⟨text, rfl, hfound, hpass, nofun⟩
  have hsame := (hread h).symm.trans (hread h')
  exact congrArg Path.segments (EStateM.Result.ok.inj hsame).1

theorem parse_eq_ok {text : String} {limit : Nat} {path : Path} :
    parse text limit = .ok path
      ↔ path.text = text ∧ Derives limit text.toList path.segments := by
  rw [parse_eq_ok_iff_read]
  constructor
  · rintro ⟨after, hread, hrest⟩
    obtain ⟨chars, hname, hchars, hpass, -⟩ := read_eq_ok.mp hread
    have hwhole : text.toList = chars := by
      have hpassed := hpass.1
      rw [hrest, List.append_nil] at hpassed
      exact hpassed
    rw [← hwhole] at hname hchars
    exact ⟨hname.trans String.ofList_toList, hchars⟩
  · rintro ⟨hname, htext⟩
    refine ⟨⟨byteLength text.toList, []⟩, read_eq_ok.mpr ⟨text.toList, ?_, htext, ?_, nofun⟩, rfl⟩
    · rw [hname, String.ofList_toList]
    · exact ⟨(List.append_nil _).symm, (Nat.zero_add _).symm⟩

/-- A text is a path exactly when the grammar derives it.  The segments are those of
the derivation, the text is kept as it stands, and there is no other derivation. -/
theorem parse_eq_ok_iff_derives (limit : Nat) (text : String) :
    (∀ path, parse text limit = .ok path
        ↔ path.text = text ∧ Derives limit text.toList path.segments)
      ∧ ∀ segments segments', Derives limit text.toList segments →
          Derives limit text.toList segments' → segments = segments' :=
  ⟨fun _ => parse_eq_ok, fun _ _ h h' => h.unique h'⟩

end TreeQuery.Path
