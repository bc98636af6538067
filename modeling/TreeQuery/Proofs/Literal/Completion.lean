import TreeQuery.Proofs.Completion
import TreeQuery.Proofs.Literal.Denotation

/-!
# Completing literals

Where a reader of literals fails, the text before the error is the beginning of a
literal.  An open bracket or quote can be closed, a bare word can stand for a missing key
or value, and a sign can be put after a key.  All of this nests as little as the texts
it completes, so the limit on open containers is no obstacle: where a container is
refused, a bare word can stand.

There is one law here for each reader that can fail.  What was read without an error is
known from the laws of `Takes`.
-/

namespace TreeQuery.Literal

open Reader Cursor

/-- A gap, and then a text that can be completed to one of the production. -/
def BeginsAfterGap {α : Type} (production : List Char → α → Prop) (text : List Char) : Prop :=
  ∃ gap rest, text = gap ++ rest ∧ Gap gap ∧ Begins production rest

theorem bareWord_a : BareWord ['a'] := by
  refine ⟨by simp, fun c hc => ?_⟩
  rw [List.mem_singleton.mp hc]
  rfl

/-- A bare word is a key. -/
theorem begins_key : Begins KeyText [] := ⟨['a'], _, .bare bareWord_a⟩

/-- A bare word is a value. -/
theorem begins_value {compound : List Char → Compound → Prop}
    {list : List Char → List Value → Prop} : Begins (ValueOf compound list) [] :=
  ⟨['a'], _, .bare bareWord_a⟩

theorem begins_valueText (nesting : Nat) : Begins (ValueText nesting) [] := by
  cases nesting with
  | zero => exact begins_value
  | succ nesting => exact begins_value

section

variable {c : Cursor}

theorem fails_readKey : FailsAfter c (BeginsAfterGap KeyText) (readKey c) := by
  refine fails_afterBlanks (fun c₁ => (?_ : FailsAfter c₁ (Begins KeyText) _))
    fun gap text hgap htext => ⟨gap, text, rfl, hgap, htext⟩
  refine fails_afterPeek ?_
  split
  · exact fails_readQuoted.imp fun text htext => htext.imp fun hquoted => ⟨_, _, .quoted hquoted⟩
  · refine fails_afterRun fun word c₂ hpass => ?_
    split
    · trivial
    · next hnil =>
      obtain rfl : word = [] := Decidable.of_not_not hnil
      obtain rfl := passes_nil.mp hpass
      split
      · exact (fails_fail _).of_nil begins_key
      · exact (fails_fail _).of_nil begins_key

theorem fails_readKeyMark : FailsAfter c Gap (readKeyMark c) := by
  refine fails_afterBlanks (fun c₁ => (?_ : FailsAfter c₁ (· = []) _)) fun gap text hgap htext => ?_
  · refine fails_afterPeek ?_
    split
    · exact fails_skip
    · exact fails_fail _
  · rwa [htext, List.append_nil]

/-- What stands between a part and an error before the next one. -/
inductive SeparatorText : List Char → Prop where
  | gap {gap : List Char} : Gap gap → SeparatorText gap
  | comma {gap gap' : List Char} : Gap gap → Gap gap' → SeparatorText (gap ++ ',' :: gap')

theorem fails_readSeparator (close : Char) :
    FailsAfter c SeparatorText (readSeparator close c) := by
  refine fails_afterBlanks
    (fun c₁ => (?_ : FailsAfter c₁ (fun text => text = [] ∨ ∃ gap, text = ',' :: gap ∧ Gap gap) _))
    fun gap text hgap htext => ?_
  · refine fails_afterPeek ?_
    split
    · next hcomma =>
      refine fails_afterSkip hcomma fun c₂ hpass => ?_
      refine FailsAfter.passed ?_ hpass
      refine fails_afterBlanks (fun c₃ => (?_ : FailsAfter c₃ (· = []) _))
        fun gap text hgap htext => ?_
      · refine fails_afterPeek ?_
        split
        · exact fails_fail _
        · trivial
      · exact .inr ⟨gap, by simp [htext], hgap⟩
    · split
      · trivial
      · exact (fails_fail _).of_nil (.inl rfl)
  · rcases htext with rfl | ⟨gap', rfl, hgap'⟩
    · rw [List.append_nil]
      exact .gap hgap
    · exact .comma hgap hgap'

theorem fails_readBare : FailsAfter c (· = []) (readBare c) := by
  refine fails_afterRun fun word c₁ hpass => ?_
  split
  · next hnil =>
    subst hnil
    obtain rfl := passes_nil.mp hpass
    exact fails_fail _
  · trivial

end

/-! ## The parts of containers -/

theorem fails_onCursor {α : Type} {read : Reader α} {s : LiteralState} {start : Cursor}
    {form : List Char → Prop} (h : FailsAfter start form (read s.cursor)) :
    FailsAfter start form (onCursor read s) := by
  rw [onCursor]
  generalize read s.cursor = outcome at h
  cases outcome with
  | ok a c => trivial
  | error error c => exact h

theorem fails_readEntry {value : LiteralReader Value} {valueText : List Char → Value → Prop}
    (hvalue : ∀ s, FailsAfter s.cursor (BeginsAfterGap valueText) (value s))
    (hsome : Begins valueText []) (s : LiteralState) :
    FailsAfter s.cursor (BeginsAfterGap (EntryText valueText)) (readEntry value s) := by
  obtain ⟨filler, filled, hfiller⟩ := hsome
  rw [List.nil_append] at hfiller
  refine FailsAfter.bind ((fails_onCursor fails_readKey).imp fun text htext => ?_)
    fun name s₁ hkey => ?_
  · obtain ⟨gap, rest, rfl, hgap, more, name, hname⟩ := htext
    have hentry := EntryText.mk hname .nil (.inl rfl) .nil hfiller
    exact ⟨gap, rest, rfl, hgap, more ++ ':' :: filler, _, by simpa using hentry⟩
  obtain ⟨gap, key, hgap, hkeyPass, hkeyForm⟩ := readKey_eq_ok.mp (onCursor_eq_ok.mp hkey).1
  have hname : KeyText key name := by
    rcases hkeyForm with hquoted | ⟨hword, rfl, -⟩
    · exact .quoted hquoted
    · exact .bare hword
  refine FailsAfter.passed ?_ hkeyPass
  refine FailsAfter.bind ((fails_onCursor fails_readKeyMark).imp fun before hbefore => ?_)
    fun _ s₂ hmark => ?_
  · have hentry := EntryText.mk hname hbefore (.inl rfl) .nil hfiller
    exact ⟨gap, key ++ before, by simp, hgap, ':' :: filler, _, by simpa using hentry⟩
  obtain ⟨before, mark, hbefore, hmarkForm, hmarkPass⟩ :=
    readKeyMark_eq_ok.mp (onCursor_eq_ok.mp hmark).1
  refine FailsAfter.passed (((hvalue s₂).map _).imp fun text htext => ?_) hmarkPass
  obtain ⟨after, rest, rfl, hafter, more, found, hfound⟩ := htext
  have hentry := EntryText.mk hname hbefore hmarkForm hafter hfound
  exact ⟨gap, key ++ before ++ mark :: (after ++ rest), by simp, hgap, more, _,
    by simpa using hentry⟩

section

variable {α : Type} {close : Char} {part : LiteralReader α} {partText : List Char → α → Prop}

theorem fails_readParts (hclose : Closes close) (htakes : TakesAfterGap part partText)
    (hpart : ∀ s, FailsAfter s.cursor (BeginsAfterGap partText) (part s))
    (hsome : Begins partText []) :
    ∀ fuel s, FailsAfter s.cursor (BeginsAfterGap (PartsText partText))
      (readParts close part fuel s)
  | 0, s => by
      obtain ⟨filler, filled, hfiller⟩ := hsome
      refine (fails_onCursor (fails_fail _)).of_nil ?_
      exact ⟨[], [], rfl, .nil, filler, [filled], by simpa using PartsText.last hfiller .nil⟩
  | fuel + 1, s => by
      obtain ⟨filler, filled, hfiller⟩ := hsome
      refine FailsAfter.bind ((hpart s).imp fun text htext => ?_) fun first s₁ hfirst => ?_
      · obtain ⟨gap, rest, rfl, hgap, more, a, ha⟩ := htext
        exact ⟨gap, rest, rfl, hgap, more, [a], by simpa using PartsText.last ha .nil⟩
      obtain ⟨gap, text, hgap, htext, hpass, -⟩ := htakes hfirst
      refine FailsAfter.passed ?_ hpass
      refine FailsAfter.bind ((fails_onCursor (fails_readSeparator close)).imp fun sep hsep => ?_)
        fun more s₂ hmore => ?_
      · cases hsep with
        | gap hgap' =>
            exact ⟨gap, text ++ sep, by simp, hgap, [], [first],
              by simpa using PartsText.last htext hgap'⟩
        | @comma gap₁ gap₂ hgap₁ hgap₂ =>
            have hparts := PartsText.more htext hgap₁ hgap₂ (PartsText.last hfiller .nil)
            exact ⟨gap, text ++ (gap₁ ++ ',' :: gap₂), by simp, hgap, filler, [first, filled],
              by simpa using hparts⟩
      cases more with
      | false => trivial
      | true =>
          obtain ⟨gap₁, gap₂, hgap₁, hgap₂, hsepPass, -⟩ :=
            readSeparator_eq_ok_true.mp (onCursor_eq_ok.mp hmore).1
          have hrest := fails_readParts hclose htakes hpart ⟨filler, filled, hfiller⟩ fuel s₂
          refine FailsAfter.passed ((hrest.map _).imp fun tail htail => ?_) hsepPass
          obtain ⟨gap₃, rest, rfl, hgap₃, more, as, has⟩ := htail
          have hparts := PartsText.more htext hgap₁ (hgap₂.append hgap₃) has
          exact ⟨gap, text ++ (gap₁ ++ ',' :: (gap₂ ++ (gap₃ ++ rest))), by simp, hgap, more, _,
            by simpa using hparts⟩

/-- The parts between brackets, of which there may be none. -/
theorem readPartsUntil_takes (hclose : Closes close) (htakes : TakesAfterGap part partText)
    {s s' : LiteralState} {as : List α} (h : readPartsUntil close part s = .ok as s')
    (opening : Char) {gap : List Char} (hgap : Gap gap) :
    ∃ text, s.cursor.Passes text s'.cursor
      ∧ BracketText opening close partText (opening :: (gap ++ text ++ [close])) as := by
  obtain ⟨next, s₁, hpeek, h⟩ := bind_eq_ok.mp h
  obtain ⟨-, hcursor⟩ := peek_eq_ok.mp (onCursor_eq_ok.mp hpeek).1
  rw [← hcursor]
  split at h
  · obtain ⟨rfl, rfl⟩ := pure_eq_ok.mp h
    have hbracket : BracketText opening close partText _ [] := .empty hgap
    exact ⟨[], Passes.refl _, by simpa using hbracket⟩
  · obtain ⟨state, s₂, hget, h⟩ := bind_eq_ok.mp h
    obtain ⟨rfl, rfl⟩ := get_eq_ok.mp hget
    obtain ⟨gap', text, hgap', htext, hpass, -⟩ := readParts_takes hclose htakes h
    have hbracket : BracketText opening close partText _ as := .parts (hgap.append hgap') htext
    exact ⟨gap' ++ text, hpass, by simpa using hbracket⟩

theorem fails_readPartsUntil (hclose : Closes close) (htakes : TakesAfterGap part partText)
    (hpart : ∀ s, FailsAfter s.cursor (BeginsAfterGap partText) (part s))
    (hsome : Begins partText []) (s : LiteralState) :
    FailsAfter s.cursor (BeginsAfterGap (PartsText partText)) (readPartsUntil close part s) := by
  have hpeek : onCursor peek s = .ok s.cursor.rest.head? s := rfl
  refine failsAfter_of_ok hpeek ?_
  split
  · trivial
  · exact failsAfter_of_ok (get_eq_ok.mpr ⟨rfl, rfl⟩)
      (fails_readParts hclose htakes hpart hsome _ s)

/-! ## Containers and values -/

theorem fails_readContainer {opening : Char} (hclose : Closes close)
    (htakes : TakesAfterGap part partText)
    (hpart : ∀ s, FailsAfter s.cursor (BeginsAfterGap partText) (part s))
    (hsome : Begins partText []) (s : LiteralState) :
    FailsAfter s.cursor (Begins (BracketText opening close partText))
      (readContainer opening close part s) := by
  have hopened :
      (modify fun state => { state with depth := state.depth + 1 } : LiteralReader Unit) s
        = .ok () ⟨s.cursor, s.depth + 1⟩ := rfl
  refine failsAfter_of_ok hopened ?_
  refine FailsAfter.bind ((fails_onCursor (fails_expect opening)).of_nil ?_) fun _ s₁ hopen => ?_
  · exact ⟨[opening, close], [], .empty .nil⟩
  have hopenPass := expect_eq_ok.mp (onCursor_eq_ok.mp hopen).1
  refine FailsAfter.passed ?_ hopenPass
  obtain ⟨gap, c, hblanks, hgap, hgapPass⟩ := skipBlanks_passes s₁.cursor
  have hskip : onCursor skipBlanks s₁ = .ok () ⟨c, s₁.depth⟩ := onCursor_eq_ok.mpr ⟨hblanks, rfl⟩
  refine failsAfter_of_ok hskip (FailsAfter.passed ?_ hgapPass)
  refine FailsAfter.bind ((fails_readPartsUntil hclose htakes hpart hsome _).imp
    fun text htext => ?_) fun as s₂ hparts => ?_
  · obtain ⟨gap', rest, rfl, hgap', more, as, has⟩ := htext
    have hbracket : BracketText opening close partText _ as := .parts (hgap.append hgap') has
    exact ⟨more ++ [close], as, by simpa using hbracket⟩
  obtain ⟨text, hpass, htext⟩ := readPartsUntil_takes hclose htakes hparts opening hgap
  refine FailsAfter.passed ?_ hpass
  refine FailsAfter.bind ((fails_onCursor (fails_expect close)).of_nil ?_) fun _ _ _ => ?_
  · exact ⟨[close], as, by simpa using htext⟩
  · trivial

end

section

variable {value : LiteralReader Value} {valueText : List Char → Value → Prop}

theorem fails_compoundOf (htakes : TakesAfterGap value valueText)
    (hvalue : ∀ s, FailsAfter s.cursor (BeginsAfterGap valueText) (value s))
    (hsome : Begins valueText []) (s : LiteralState) :
    FailsAfter s.cursor (Begins (CompoundOf valueText)) (compoundOf value s) := by
  have hentry : Begins (EntryText valueText) [] := by
    obtain ⟨filler, filled, hfiller⟩ := hsome
    exact ⟨['a', ':'] ++ filler, _, .mk (.bare bareWord_a) .nil (.inl rfl) .nil hfiller⟩
  have hcontainer : FailsAfter s.cursor (Begins (BracketText '\x7b' '\x7d' (EntryText valueText)))
      (readContainer '\x7b' '\x7d' (readEntry value) s) :=
    fails_readContainer closes_brace (readEntry_takes htakes) (fails_readEntry hvalue hsome)
      hentry s
  exact (hcontainer.map _).imp fun text htext => htext.imp fun h => ⟨_, _, .mk h⟩

theorem fails_listOf (htakes : TakesAfterGap value valueText)
    (hvalue : ∀ s, FailsAfter s.cursor (BeginsAfterGap valueText) (value s))
    (hsome : Begins valueText []) (s : LiteralState) :
    FailsAfter s.cursor (Begins (ListOf valueText)) (listOf value s) :=
  fails_readContainer closes_bracket htakes hvalue hsome s

end

theorem fails_refuse {α : Type} (limit : Nat) (s : LiteralState) :
    FailsAfter s.cursor (· = []) (refuse limit s : EStateM.Result _ _ α) :=
  fails_onCursor (fails_fail _)

theorem fails_valueOf {compound : LiteralReader Compound} {list : LiteralReader (List Value)}
    {compoundText : List Char → Compound → Prop} {listText : List Char → List Value → Prop}
    (hcompound : ∀ s, FailsAfter s.cursor (NilOrBegins compoundText) (compound s))
    (hlist : ∀ s, FailsAfter s.cursor (NilOrBegins listText) (list s)) (s : LiteralState) :
    FailsAfter s.cursor (BeginsAfterGap (ValueOf compoundText listText))
      (valueOf compound list s) := by
  obtain ⟨gap, c, hblanks, hgap, hpass⟩ := skipBlanks_passes s.cursor
  suffices h : FailsAfter c (Begins (ValueOf compoundText listText)) (valueOf compound list s) from
    (h.imp fun text htext => ⟨gap, text, rfl, hgap, htext⟩).passed hpass
  cases hfirst : c.rest.head? with
  | none =>
      rw [valueOf_of_end hblanks hfirst]
      exact (fails_onCursor (s := ⟨c, s.depth⟩) (fails_fail _)).of_nil begins_value
  | some first =>
      rw [valueOf_of_head hblanks hfirst]
      split
      · exact ((hcompound ⟨c, s.depth⟩).map _).ofNilOrBegins begins_value
          fun hentries => ⟨_, .compound hentries⟩
      · split
        · exact ((hlist ⟨c, s.depth⟩).map _).ofNilOrBegins begins_value
            fun hitems => ⟨_, .list hitems⟩
        · split
          · refine ((fails_onCursor fails_readQuoted).map _).imp fun text htext => ?_
            exact htext.imp fun h => ⟨_, _, .quoted h⟩
          · exact (fails_onCursor fails_readBare).of_nil begins_value

/-- A value that fails is the beginning of one, with as many containers inside each other
as there is room for. -/
theorem fails_valueWithin (limit room : Nat) (s : LiteralState) :
    FailsAfter s.cursor (BeginsAfterGap (ValueText room)) (valueWithin limit room s) := by
  induction room generalizing s with
  | zero =>
      exact fails_valueOf (fun s => (fails_refuse limit s).imp fun _ => .inl)
        (fun s => (fails_refuse limit s).imp fun _ => .inl) s
  | succ room ih =>
      have htakes := valueWithin_takes limit room
      exact fails_valueOf
        (fun s => (fails_compoundOf htakes ih (begins_valueText room) s).imp fun _ => .inr)
        (fun s => (fails_listOf htakes ih (begins_valueText room) s).imp fun _ => .inr) s

theorem fails_compoundWithin (limit room : Nat) (s : LiteralState) :
    FailsAfter s.cursor (NilOrBegins (CompoundText room)) (compoundWithin limit room s) := by
  cases room with
  | zero => exact (fails_refuse limit s).imp fun _ => .inl
  | succ room =>
      have hcompound := fails_compoundOf (valueWithin_takes limit room)
        (fails_valueWithin limit room) (begins_valueText room) s
      exact hcompound.imp fun _ => .inr

/-! ## Whole texts -/

theorem fails_fromOutside {α : Type} {read : LiteralReader α} {c : Cursor}
    {form : List Char → Prop} (h : FailsAfter c form (read ⟨c, 0⟩)) :
    FailsAfter c form (fromOutside read c) := by
  rw [fromOutside]
  generalize read ⟨c, 0⟩ = outcome at h
  cases outcome with
  | ok a s => trivial
  | error error s => exact h

theorem fails_read (limit : Nat) (c : Cursor) :
    FailsAfter c (BeginsAfterGap (ValueText limit)) (read limit c) :=
  fails_fromOutside (fails_valueWithin limit limit ⟨c, 0⟩)

/-- A text that is refused as a literal is the beginning of one up to the error. -/
theorem completes_of_parse_error {text : String} {error : SyntaxError}
    (h : parse text = .error error) :
    CompletesAt (fun whole => ∃ value, parse whole = .ok value) text error.position := by
  have hwhole : FailsAfter (.atStart text.toList)
      (Begins fun chars value => parse (String.ofList chars) = .ok value) ((do
        let value ← read defaultLimit
        skipBlanks
        if (← peek).isSome then fail .trailingInput else pure value : Reader Value)
          (.atStart text.toList)) := by
    refine FailsAfter.bind ((fails_read _ _).imp fun before hbefore => ?_) fun value c hread => ?_
    · obtain ⟨gap, rest, rfl, hgap, more, value, hvalue⟩ := hbefore
      exact ⟨more, value, parse_eq_ok.mpr ⟨gap, rest ++ more, [], by simp, hgap, .nil, hvalue⟩⟩
    obtain ⟨gap, inner, hgap, hinner, hpass, -⟩ :=
      valueWithin_takes defaultLimit defaultLimit (read_eq_ok.mp hread)
    refine FailsAfter.passed ?_ hpass
    refine fails_afterBlanks (fun c₁ => (?_ : FailsAfter c₁ (· = []) _))
      fun gap' text hgap' htext => ?_
    · refine fails_afterPeek ?_
      split
      · exact fails_fail _
      · trivial
    · subst htext
      exact ⟨[], value, parse_eq_ok.mpr ⟨gap, inner, gap', by simp, hgap, hgap', hinner⟩⟩
  unfold parse at h
  dsimp only at h
  split at h
  · cases h
  · next found stop hread =>
    obtain rfl := Except.error.inj h
    rw [hread] at hwhole
    exact completesAt_of_fails hwhole fun chars value hvalue => ⟨value, hvalue⟩

end TreeQuery.Literal
