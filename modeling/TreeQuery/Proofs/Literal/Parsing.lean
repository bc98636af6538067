import TreeQuery.Proofs.Literal.Part

/-!
# Reading literals and deriving them

A reader of literals succeeds on a text exactly when the grammar derives it, with
the value the text stands for.

There is a law for each half, for readers of containers and of parts.  By `Takes`
what the reader takes is a text of the production, and it leaves the count of open
containers as it was.  By `Accepts` it takes every such text.  A reader of parts skips
a gap first.  A part may be a bare word, and that is read as long as it goes on.  So
`AcceptsAfterGap` asks that no bare character follows the text.

A reader that may not open as many containers as the text has inside each other does
not take it.  But it fails because of its limit and for no other reason.  So the
second half is stated up to faults that are excused (`Yields`).  One proof covers the
readers that have room enough and those that do not.

A container is read by the law of its parts, whatever they are.  Values follow by
induction on the room that is left for containers, or on the nesting that the grammar
allows (`valueWithin_takes`, `valueWithin_accepts`).
-/

namespace TreeQuery.Literal

open Reader Cursor

/-! ## Readers and productions -/

section

variable {α β : Type}

/-- The reader gives the value and stops where it should, or fails with a fault that is
excused. -/
def Yields (excused : SyntaxFault → Prop) (read : LiteralReader α) (s : LiteralState) (a : α)
    (s' : LiteralState) : Prop :=
  read s = .ok a s' ∨ ∃ error stop, excused error.fault ∧ read s = .error error stop

theorem Yields.bind {excused : SyntaxFault → Prop} {read : LiteralReader α}
    {next : α → LiteralReader β} {s s₁ s' : LiteralState} {a : α} {b : β}
    (h : Yields excused read s a s₁) (hnext : Yields excused (next a) s₁ b s') :
    Yields excused (read >>= next) s b s' := by
  obtain hread | ⟨error, stop, hexcused, hread⟩ := h
  · rwa [Yields, bind_of_ok hread]
  · exact .inr ⟨error, stop, hexcused, bind_of_error hread⟩

/-- The same, where the second reader only wraps the value. -/
theorem Yields.map {excused : SyntaxFault → Prop} {read : LiteralReader α}
    {s s' : LiteralState} {a : α} (h : Yields excused read s a s') (f : α → β) :
    Yields excused (read >>= fun a => pure (f a)) s (f a) s' :=
  h.bind (.inl rfl)

/-- Where nothing is excused, the value is given. -/
theorem Yields.ok {read : LiteralReader α} {s s' : LiteralState} {a : α}
    (h : Yields (fun _ => False) read s a s') : read s = .ok a s' := by
  obtain hread | ⟨-, -, hfalse, -⟩ := h
  · exact hread
  · exact hfalse.elim

/-- A reader at the cursor goes on as it does. -/
theorem yields_onCursor {excused : SyntaxFault → Prop} {read : Reader α} {c c' : Cursor}
    {depth : Nat} {a : α} (h : read c = .ok a c') :
    Yields excused (onCursor read) ⟨c, depth⟩ a ⟨c', depth⟩ :=
  .inl (onCursor_eq_ok.mpr ⟨h, rfl⟩)

/-- What the reader takes is a text of the production. -/
def Takes (read : LiteralReader α) (production : List Char → α → Prop) : Prop :=
  ∀ ⦃s s' : LiteralState⦄ ⦃a : α⦄, read s = .ok a s' →
    ∃ text, production text a ∧ s.cursor.Passes text s'.cursor ∧ s'.depth = s.depth

/-- Every text of the production is taken, excused faults aside. -/
def Accepts (excused : SyntaxFault → Prop) (read : LiteralReader α)
    (production : List Char → α → Prop) : Prop :=
  ∀ ⦃text : List Char⦄ ⦃a : α⦄ ⦃s s' : LiteralState⦄, production text a →
    s.cursor.Passes text s'.cursor → s'.depth = s.depth → Yields excused read s a s'

/-- What the reader takes is a gap and a text of the production. -/
def TakesAfterGap (read : LiteralReader α) (production : List Char → α → Prop) : Prop :=
  ∀ ⦃s s' : LiteralState⦄ ⦃a : α⦄, read s = .ok a s' →
    ∃ gap text, Gap gap ∧ production text a ∧ s.cursor.Passes (gap ++ text) s'.cursor
      ∧ s'.depth = s.depth

/-- Every gap with a text of the production after it is taken, if no bare character
follows, excused faults aside. -/
def AcceptsAfterGap (excused : SyntaxFault → Prop) (read : LiteralReader α)
    (production : List Char → α → Prop) : Prop :=
  ∀ ⦃gap text : List Char⦄ ⦃a : α⦄ ⦃s s' : LiteralState⦄, Gap gap → production text a →
    s.cursor.Passes (gap ++ text) s'.cursor → Stops isBare s'.cursor.rest → s'.depth = s.depth →
      Yields excused read s a s'

/-- The texts of the production start as keys and values do. -/
def Starts (production : List Char → α → Prop) : Prop :=
  ∀ ⦃text a⦄, production text a → IsStart text

end

/-! ## Entries -/

theorem readEntry_takes {value : LiteralReader Value} {valueText : List Char → Value → Prop}
    (hvalue : TakesAfterGap value valueText) :
    TakesAfterGap (readEntry value) (EntryText valueText) := by
  intro s s' entry h
  simp only [readEntry, bind_eq_ok] at h
  obtain ⟨name, s₁, hkey, u, s₂, hmark, found, s₃, hfound, h⟩ := h
  obtain ⟨rfl, rfl⟩ := pure_eq_ok.mp h
  obtain ⟨hkey, hdepth₁⟩ := onCursor_eq_ok.mp hkey
  obtain ⟨hmark, hdepth₂⟩ := onCursor_eq_ok.mp hmark
  obtain ⟨gap, key, hgap, hkeyPass, hkeyForm⟩ := readKey_eq_ok.mp hkey
  obtain ⟨before, mark, hbefore, hmarkForm, hmarkPass⟩ := readKeyMark_eq_ok.mp hmark
  obtain ⟨after, text, hafter, htext, htextPass, hdepth₃⟩ := hvalue hfound
  have hkeyText : KeyText key name := by
    rcases hkeyForm with hquoted | ⟨hword, rfl, -⟩
    · exact .quoted hquoted
    · exact .bare hword
  refine ⟨gap, key ++ before ++ mark :: (after ++ text), hgap,
    .mk hkeyText hbefore hmarkForm hafter htext, ?_, ?_⟩
  · have hpass := hkeyPass.append (hmarkPass.append htextPass)
    simpa only [List.append_assoc, List.singleton_append] using hpass
  · rw [hdepth₃, hdepth₂, hdepth₁]

theorem readEntry_accepts {excused : SyntaxFault → Prop} {value : LiteralReader Value}
    {valueText : List Char → Value → Prop} (hvalue : AcceptsAfterGap excused value valueText) :
    AcceptsAfterGap excused (readEntry value) (EntryText valueText) := by
  intro gap text entry s s' hgap h hpass hstop hdepth
  obtain @⟨key, before, after, text, mark, name, found, hkey, hbefore, hmark, hafter, htext⟩ := h
  rw [List.append_assoc, ← List.append_assoc] at hpass
  obtain ⟨c₁, hkeyPass, hpass⟩ := passes_append.mp hpass
  rw [← List.singleton_append, ← List.append_assoc] at hpass
  obtain ⟨c₂, hmarkPass, htextPass⟩ := passes_append.mp hpass
  have hkeyStop : Stops isBare c₁.rest := by
    rw [hmarkPass.1, List.append_assoc]
    refine stops_isBare_of_gap hbefore ?_
    rw [List.singleton_append, stops_cons]
    rcases hmark with rfl | rfl
    · decide
    · decide
  have hkeyRead : readKey s.cursor = .ok name c₁ := by
    refine readKey_eq_ok.mpr ⟨gap, key, hgap, hkeyPass, ?_⟩
    cases hkey with
    | quoted hquoted => exact .inl hquoted
    | bare hword => exact .inr ⟨hword, rfl, hkeyStop⟩
  have hmarkRead : readKeyMark c₁ = .ok () c₂ :=
    readKeyMark_eq_ok.mpr ⟨before, mark, hbefore, hmark, hmarkPass⟩
  have hvalueRead : Yields excused value ⟨c₂, s.depth⟩ found s' :=
    hvalue hafter htext htextPass hstop hdepth
  exact (yields_onCursor hkeyRead).bind ((yields_onCursor hmarkRead).bind (hvalueRead.map _))

/-! ## Parts with commas between them -/

/-- What the closing character of a container must not be. -/
structure Closes (close : Char) : Prop where
  ne_comma : close ≠ ','
  not_blank : Text.isBlank close = false
  not_bare : isBare close = false
  not_start : isStart close = false

section

variable {α : Type} {excused : SyntaxFault → Prop} {close : Char} {part : LiteralReader α}
  {partText : List Char → α → Prop}

theorem readParts_takes (hclose : Closes close) (hpart : TakesAfterGap part partText) :
    ∀ {fuel : Nat} {s s' : LiteralState} {as : List α}, readParts close part fuel s = .ok as s' →
      ∃ gap text, Gap gap ∧ PartsText partText text as ∧ s.cursor.Passes (gap ++ text) s'.cursor
        ∧ s'.depth = s.depth ∧ s'.cursor.rest.head? = some close
  | 0, _, _, _, h => absurd h fail_onCursor_ne_ok
  | fuel + 1, s, s', as, h => by
      simp only [readParts, bind_eq_ok] at h
      obtain ⟨a, s₁, ha, more, s₂, hsep, h⟩ := h
      obtain ⟨gap, text, hgap, htext, hpass, hdepth₁⟩ := hpart ha
      obtain ⟨hsep, hdepth₂⟩ := onCursor_eq_ok.mp hsep
      cases more with
      | false =>
          obtain ⟨rfl, rfl⟩ := pure_eq_ok.mp h
          obtain ⟨gap', hgap', hpass', hhead⟩ :=
            (readSeparator_eq_ok_false hclose.ne_comma hclose.not_blank).mp hsep
          refine ⟨gap, text ++ gap', hgap, .last htext hgap', ?_, hdepth₂.trans hdepth₁, hhead⟩
          rw [← List.append_assoc]
          exact hpass.append hpass'
      | true =>
          rw [if_pos rfl] at h
          obtain ⟨rest, hrest, rfl⟩ := map_eq_ok.mp h
          obtain ⟨gap₁, gap₂, hgap₁, hgap₂, hpass₂, -, -⟩ := readSeparator_eq_ok_true.mp hsep
          obtain ⟨gap₃, tail, hgap₃, htail, hpass₃, hdepth₃, hhead⟩ :=
            readParts_takes hclose hpart hrest
          refine ⟨gap, text ++ gap₁ ++ ',' :: (gap₂ ++ gap₃ ++ tail), hgap,
            .more htext hgap₁ (hgap₂.append hgap₃) htail, ?_,
            hdepth₃.trans (hdepth₂.trans hdepth₁), hhead⟩
          have hall := hpass.append (hpass₂.append hpass₃)
          simpa only [List.append_assoc, List.cons_append] using hall

/-- The fuel is enough when it is more than the length of the text. -/
theorem readParts_accepts (hclose : Closes close) (hpart : AcceptsAfterGap excused part partText)
    (hstarts : Starts partText) {text : List Char} {as : List α} (h : PartsText partText text as) :
    ∀ {fuel : Nat} {s s' : LiteralState}, text.length < fuel → s.cursor.Passes text s'.cursor →
      s'.cursor.rest.head? = some close → s'.depth = s.depth →
        Yields excused (readParts close part fuel) s as s' := by
  induction h with
  | @last text gap a htext hgap =>
      intro fuel s s' hfuel hpass hhead hdepth
      obtain ⟨fuel, rfl⟩ := Nat.exists_eq_succ_of_ne_zero (Nat.ne_zero_of_lt hfuel)
      obtain ⟨c₁, htextPass, hgapPass⟩ := passes_append.mp hpass
      have hstop : Stops isBare c₁.rest := by
        rw [hgapPass.1]
        refine stops_isBare_of_gap hgap ?_
        intro c hc
        rw [hhead, Option.mem_some_iff] at hc
        rw [← hc]
        exact hclose.not_bare
      have hread : Yields excused part s a ⟨c₁, s.depth⟩ :=
        hpart Gap.nil htext htextPass hstop rfl
      have hsep : readSeparator close c₁ = .ok false s'.cursor :=
        (readSeparator_eq_ok_false hclose.ne_comma hclose.not_blank).mpr
          ⟨gap, hgap, hgapPass, hhead⟩
      refine hread.bind (Yields.bind (.inl (onCursor_eq_ok.mpr ⟨hsep, hdepth⟩)) ?_)
      exact .inl rfl
  | @more text gap gap' rest a as htext hgap hgap' hrest ih =>
      intro fuel s s' hfuel hpass hhead hdepth
      obtain ⟨fuel, rfl⟩ := Nat.exists_eq_succ_of_ne_zero (Nat.ne_zero_of_lt hfuel)
      rw [List.append_assoc] at hpass
      obtain ⟨c₁, htextPass, hpass⟩ := passes_append.mp hpass
      rw [← List.cons_append, ← List.append_assoc] at hpass
      obtain ⟨c₂, hcommaPass, hrestPass⟩ := passes_append.mp hpass
      have hstop : Stops isBare c₁.rest := by
        rw [hcommaPass.1, List.append_assoc]
        refine stops_isBare_of_gap hgap ?_
        rw [List.cons_append, stops_cons]
        decide
      have hread : Yields excused part s a ⟨c₁, s.depth⟩ :=
        hpart Gap.nil htext htextPass hstop rfl
      have hrestStart : IsStart c₂.rest := by
        rw [hrestPass.1]
        exact (hrest.start fun ht => hstarts ht).append _
      have hsep : readSeparator close c₁ = .ok true c₂ :=
        readSeparator_eq_ok_true.mpr ⟨gap, gap', hgap, hgap', hcommaPass,
          hrestStart.stops_isBlank, hrestStart.head?_ne hclose.not_start⟩
      have hfuel' : rest.length < fuel := by
        simp only [List.length_append, List.length_cons] at hfuel
        omega
      have htail : Yields excused (readParts close part fuel) ⟨c₂, s.depth⟩ as s' :=
        ih hfuel' hrestPass hhead hdepth
      exact hread.bind ((yields_onCursor hsep).bind (htail.map _))

/-! ## Containers -/

theorem readContainer_takes {opening : Char} (hclose : Closes close)
    (hpart : TakesAfterGap part partText) :
    Takes (readContainer opening close part) (BracketText opening close partText) := by
  intro s s' as h
  simp only [readContainer, readPartsUntil, bind_eq_ok] at h
  obtain ⟨_, s₁, hopen, _, s₂, hexpect, _, s₃, hblanks, parts, s₄, ⟨next, s₅, hpeek, hparts⟩,
    _, s₆, hexpect', _, s₇, hclosed, h⟩ := h
  obtain rfl := modify_eq_ok.mp hopen
  obtain ⟨hexpect, hdepth₂⟩ := onCursor_eq_ok.mp hexpect
  obtain ⟨hblanks, hdepth₃⟩ := onCursor_eq_ok.mp hblanks
  obtain ⟨hpeek, hdepth₅⟩ := onCursor_eq_ok.mp hpeek
  obtain ⟨hexpect', hdepth₆⟩ := onCursor_eq_ok.mp hexpect'
  obtain rfl := modify_eq_ok.mp hclosed
  obtain ⟨rfl, rfl⟩ := pure_eq_ok.mp h
  have hopenPass := expect_eq_ok.mp hexpect
  obtain ⟨gap, hgap, hgapPass, -⟩ := skipBlanks_eq_ok.mp hblanks
  obtain ⟨rfl, hcursor⟩ := peek_eq_ok.mp hpeek
  have hclosePass := expect_eq_ok.mp hexpect'
  have hdepth : s₅.depth = s.depth + 1 := by rw [hdepth₅, hdepth₃, hdepth₂]
  split at hparts
  · obtain ⟨rfl, rfl⟩ := pure_eq_ok.mp hparts
    rw [hcursor] at hclosePass
    refine ⟨opening :: (gap ++ [close]), .empty hgap,
      passes_cons.mpr ⟨_, hopenPass, hgapPass.append hclosePass⟩, ?_⟩
    show s₆.depth - 1 = s.depth
    rw [hdepth₆, hdepth, Nat.add_sub_cancel]
  · obtain ⟨state, s₈, hget, hparts⟩ := bind_eq_ok.mp hparts
    obtain ⟨rfl, rfl⟩ := get_eq_ok.mp hget
    obtain ⟨gap', text, hgap', htext, hpass, hdepth₄, -⟩ :=
      readParts_takes hclose hpart hparts
    rw [hcursor] at hpass
    refine ⟨opening :: (gap ++ gap' ++ text ++ [close]), .parts (hgap.append hgap') htext, ?_, ?_⟩
    · have hall := hopenPass.append (hgapPass.append (hpass.append hclosePass))
      simpa only [List.append_assoc, List.singleton_append] using hall
    · show s₆.depth - 1 = s.depth
      rw [hdepth₆, hdepth₄, hdepth, Nat.add_sub_cancel]

/-- A container yields what is between its brackets. -/
theorem readContainer_of_parts {opening : Char} {as : List α} {s s' : LiteralState}
    {c₁ c₂ c₃ : Cursor} (hopen : s.cursor.Passes [opening] c₁)
    (hblanks : skipBlanks c₁ = .ok () c₂)
    (hparts : Yields excused (readPartsUntil close part) ⟨c₂, s.depth + 1⟩ as ⟨c₃, s.depth + 1⟩)
    (hclose : c₃.Passes [close] s'.cursor) (hdepth : s'.depth = s.depth) :
    Yields excused (readContainer opening close part) s as s' := by
  have hopened : Yields excused (modify fun state => { state with depth := state.depth + 1 })
      s () ⟨s.cursor, s.depth + 1⟩ := .inl rfl
  have hclosed : Yields excused (modify fun state => { state with depth := state.depth - 1 })
      ⟨s'.cursor, s.depth + 1⟩ () s' := by
    refine .inl (modify_eq_ok.mpr ?_)
    show s' = ⟨s'.cursor, s.depth + 1 - 1⟩
    rw [Nat.add_sub_cancel, ← hdepth]
  have hopening : expect opening s.cursor = .ok () c₁ := expect_eq_ok.mpr hopen
  have hclosing : expect close c₃ = .ok () s'.cursor := expect_eq_ok.mpr hclose
  refine hopened.bind ((yields_onCursor hopening).bind ((yields_onCursor hblanks).bind ?_))
  exact hparts.bind ((yields_onCursor hclosing).bind (hclosed.map fun _ => as))

theorem readContainer_accepts {opening : Char} (hclose : Closes close)
    (hpart : AcceptsAfterGap excused part partText) (hstarts : Starts partText) :
    Accepts excused (readContainer opening close part) (BracketText opening close partText) := by
  intro text as s s' h hpass hdepth
  have hpeek : ∀ (c : Cursor), onCursor peek ⟨c, s.depth + 1⟩
      = .ok c.rest.head? ⟨c, s.depth + 1⟩ := fun _ => rfl
  cases h with
  | @empty gap hgap =>
      obtain ⟨c₁, hopenPass, hpass⟩ := passes_cons.mp hpass
      obtain ⟨c₂, hgapPass, hclosePass⟩ := passes_append.mp hpass
      have hhead : c₂.rest.head? = some close := by rw [hclosePass.1]; rfl
      have hblank : Stops Text.isBlank c₂.rest := by
        rw [hclosePass.1, List.singleton_append, stops_cons]
        exact hclose.not_blank
      have hblanks : skipBlanks c₁ = .ok () c₂ :=
        skipBlanks_eq_ok.mpr ⟨gap, hgap, hgapPass, hblank⟩
      refine readContainer_of_parts hopenPass hblanks (Yields.bind (.inl (hpeek c₂)) ?_)
        hclosePass hdepth
      rw [if_pos hhead]
      exact .inl rfl
  | @parts gap text as hgap htext =>
      obtain ⟨c₁, hopenPass, hpass⟩ := passes_cons.mp hpass
      obtain ⟨c₃, hpass, hclosePass⟩ := passes_append.mp hpass
      obtain ⟨c₂, hgapPass, htextPass⟩ := passes_append.mp hpass
      have hstart : IsStart c₂.rest := by
        rw [htextPass.1]
        exact (htext.start fun ht => hstarts ht).append _
      have hhead : c₃.rest.head? = some close := by rw [hclosePass.1]; rfl
      have hfuel : text.length < c₂.rest.length + 1 := by
        rw [htextPass.1, List.length_append]
        omega
      have hblanks : skipBlanks c₁ = .ok () c₂ :=
        skipBlanks_eq_ok.mpr ⟨gap, hgap, hgapPass, hstart.stops_isBlank⟩
      refine readContainer_of_parts hopenPass hblanks (Yields.bind (.inl (hpeek c₂)) ?_)
        hclosePass hdepth
      rw [if_neg (hstart.head?_ne hclose.not_start)]
      refine Yields.bind (.inl (get_eq_ok.mpr ⟨rfl, rfl⟩)) ?_
      exact readParts_accepts hclose hpart hstarts htext hfuel htextPass hhead rfl

end

/-! ## Values -/

theorem closes_brace : Closes '\x7d' := ⟨by decide, by decide, by decide, by decide⟩

theorem closes_bracket : Closes ']' := ⟨by decide, by decide, by decide, by decide⟩

section

variable {excused : SyntaxFault → Prop} {value : LiteralReader Value}
  {valueText : List Char → Value → Prop}

theorem compoundOf_takes (hvalue : TakesAfterGap value valueText) :
    Takes (compoundOf value) (CompoundOf valueText) := by
  intro s s' entries h
  obtain ⟨found, hfound, rfl⟩ := map_eq_ok.mp h
  obtain ⟨text, htext, hpass, hdepth⟩ :=
    readContainer_takes closes_brace (readEntry_takes hvalue) hfound
  exact ⟨text, .mk htext, hpass, hdepth⟩

theorem compoundOf_accepts (hvalue : AcceptsAfterGap excused value valueText) :
    Accepts excused (compoundOf value) (CompoundOf valueText) := by
  intro text entries s s' h hpass hdepth
  cases h with
  | mk htext =>
      have hentries := readContainer_accepts closes_brace (readEntry_accepts hvalue)
        (fun _ _ h => h.start) htext hpass hdepth
      exact hentries.map Compound.ofList

theorem listOf_takes (hvalue : TakesAfterGap value valueText) :
    Takes (listOf value) (ListOf valueText) :=
  readContainer_takes closes_bracket hvalue

theorem listOf_accepts (hvalue : AcceptsAfterGap excused value valueText)
    (hstarts : Starts valueText) : Accepts excused (listOf value) (ListOf valueText) :=
  readContainer_accepts closes_bracket hvalue hstarts

/-- Nothing is read where no container may be opened. -/
theorem refuse_takes {α : Type} (limit : Nat) :
    Takes (refuse limit : LiteralReader α) (fun _ _ => False) :=
  fun _ _ _ h => absurd h fail_onCursor_ne_ok

theorem refuse_accepts {α : Type} {limit : Nat} (h : excused (.tooDeep limit))
    (production : List Char → α → Prop) : Accepts excused (refuse limit) production :=
  fun _ _ s _ _ _ _ => .inr ⟨⟨.tooDeep limit, s.cursor.position⟩, s, h, rfl⟩

end

/-- The first character that is not blank decides what is read. -/
theorem valueOf_of_end {compound : LiteralReader Compound} {list : LiteralReader (List Value)}
    {s : LiteralState} {c : Cursor} (hblanks : skipBlanks s.cursor = .ok () c)
    (hend : c.rest.head? = none) :
    valueOf compound list s = onCursor (fail (.unexpectedEnd .value)) ⟨c, s.depth⟩ := by
  have hskip : onCursor skipBlanks s = .ok () ⟨c, s.depth⟩ := onCursor_eq_ok.mpr ⟨hblanks, rfl⟩
  have hpeek : onCursor peek ⟨c, s.depth⟩ = .ok none ⟨c, s.depth⟩ :=
    onCursor_eq_ok.mpr ⟨peek_eq_ok.mpr ⟨hend.symm, rfl⟩, rfl⟩
  rw [valueOf, bind_of_ok hskip, bind_of_ok hpeek]

theorem valueOf_of_head {compound : LiteralReader Compound} {list : LiteralReader (List Value)}
    {s : LiteralState} {c : Cursor} {first : Char} (hblanks : skipBlanks s.cursor = .ok () c)
    (hfirst : c.rest.head? = some first) :
    valueOf compound list s
      = (if first = '\x7b' then return .compound (← compound)
        else if first = '[' then return .list (← list)
        else if isQuote first then return .scalar (.string (← onCursor readQuoted))
        else onCursor readBare : LiteralReader Value) ⟨c, s.depth⟩ := by
  have hskip : onCursor skipBlanks s = .ok () ⟨c, s.depth⟩ := onCursor_eq_ok.mpr ⟨hblanks, rfl⟩
  have hpeek : onCursor peek ⟨c, s.depth⟩ = .ok (some first) ⟨c, s.depth⟩ :=
    onCursor_eq_ok.mpr ⟨peek_eq_ok.mpr ⟨hfirst.symm, rfl⟩, rfl⟩
  rw [valueOf, bind_of_ok hskip, bind_of_ok hpeek]
  refine congrFun ?_ _
  split
  · next heq => cases heq
  · next heq =>
    cases heq
    rfl
  · next heq =>
    cases heq
    rfl
  · next d hbrace hbracket heq =>
    obtain rfl := Option.some.inj heq
    have hbrace' : first ≠ '\x7b' := by
      rintro rfl
      exact hbrace rfl
    have hbracket' : first ≠ '[' := by
      rintro rfl
      exact hbracket rfl
    rw [if_neg hbrace', if_neg hbracket']

section

variable {excused : SyntaxFault → Prop} {compound : LiteralReader Compound}
  {list : LiteralReader (List Value)} {compoundText : List Char → Compound → Prop}
  {listText : List Char → List Value → Prop}

theorem valueOf_takes (hcompound : Takes compound compoundText) (hlist : Takes list listText) :
    TakesAfterGap (valueOf compound list) (ValueOf compoundText listText) := by
  intro s s' found h
  obtain ⟨gap, c, hblanks, hgap, hgapPass⟩ := skipBlanks_passes s.cursor
  suffices htext : ∃ text, ValueOf compoundText listText text found
      ∧ c.Passes text s'.cursor ∧ s'.depth = s.depth by
    obtain ⟨text, htext, hpass, hdepth⟩ := htext
    exact ⟨gap, text, hgap, htext, hgapPass.append hpass, hdepth⟩
  cases hfirst : c.rest.head? with
  | none =>
      rw [valueOf_of_end hblanks hfirst] at h
      exact absurd h fail_onCursor_ne_ok
  | some first =>
      rw [valueOf_of_head hblanks hfirst] at h
      split at h
      · obtain ⟨entries, hentries, rfl⟩ := map_eq_ok.mp h
        obtain ⟨text, htext, hpass, hdepth⟩ := hcompound hentries
        exact ⟨text, .compound htext, hpass, hdepth⟩
      · split at h
        · obtain ⟨items, hitems, rfl⟩ := map_eq_ok.mp h
          obtain ⟨text, htext, hpass, hdepth⟩ := hlist hitems
          exact ⟨text, .list htext, hpass, hdepth⟩
        · split at h
          · obtain ⟨content, hquoted, rfl⟩ := map_eq_ok.mp h
            obtain ⟨hquoted, hdepth⟩ := onCursor_eq_ok.mp hquoted
            obtain ⟨text, htext, hpass⟩ := readQuoted_eq_ok.mp hquoted
            exact ⟨text, .quoted htext, hpass, hdepth⟩
          · obtain ⟨hbare, hdepth⟩ := onCursor_eq_ok.mp h
            obtain ⟨word, hword, rfl, hpass, -⟩ := readBare_eq_ok.mp hbare
            exact ⟨word, .bare hword, hpass, hdepth⟩

/-- The production of a value shows in its first character. -/
theorem valueOf_accepts (hcompound : Accepts excused compound compoundText)
    (hlist : Accepts excused list listText)
    (hbrace : ∀ ⦃text entries⦄, compoundText text entries → text.head? = some '\x7b')
    (hbracket : ∀ ⦃text items⦄, listText text items → text.head? = some '[') :
    AcceptsAfterGap excused (valueOf compound list) (ValueOf compoundText listText) := by
  intro gap text found s s' hgap h hpass hstop hdepth
  obtain ⟨c, hgapPass, htextPass⟩ := passes_append.mp hpass
  -- The gap ends where the text starts, so the blanks are skipped up to there.
  have hhead : ∀ {first : Char}, text.head? = some first → isStart first = true →
      c.rest.head? = some first ∧ skipBlanks s.cursor = .ok () c := by
    intro first hfirst hstart
    obtain ⟨rest, rfl⟩ := List.head?_eq_some_iff.mp hfirst
    refine ⟨by rw [htextPass.1]; rfl, skipBlanks_eq_ok.mpr ⟨gap, hgap, hgapPass, ?_⟩⟩
    rw [htextPass.1, List.cons_append, stops_cons]
    exact isBlank_of_isStart hstart
  cases h with
  | compound htext =>
      obtain ⟨hfirst, hblanks⟩ := hhead (hbrace htext) (by decide)
      rw [Yields, valueOf_of_head hblanks hfirst, if_pos rfl]
      have hread : Yields excused compound ⟨c, s.depth⟩ _ s' := hcompound htext htextPass hdepth
      exact hread.map Value.compound
  | list htext =>
      obtain ⟨hfirst, hblanks⟩ := hhead (hbracket htext) (by decide)
      rw [Yields, valueOf_of_head hblanks hfirst, if_neg (by decide), if_pos rfl]
      have hread : Yields excused list ⟨c, s.depth⟩ _ s' := hlist htext htextPass hdepth
      exact hread.map Value.list
  | @quoted content htext =>
      have hread : readQuoted c = .ok content s'.cursor :=
        readQuoted_eq_ok.mpr ⟨text, htext, htextPass⟩
      obtain @⟨quote, rest, content, hquote, hrest⟩ := htext
      obtain ⟨hfirst, hblanks⟩ := hhead rfl (by simp [isStart, hquote])
      have hne : quote ≠ '\x7b' ∧ quote ≠ '[' := by
        rcases isQuote_eq_true.mp hquote with rfl | rfl
        · decide
        · decide
      rw [Yields, valueOf_of_head hblanks hfirst, if_neg hne.1, if_neg hne.2, if_pos hquote]
      exact .inl <| map_eq_ok.mpr ⟨_, onCursor_eq_ok.mpr ⟨hread, hdepth⟩, rfl⟩
  | bare hword =>
      obtain ⟨first, rest, rfl, hstart⟩ := hword.start
      obtain ⟨hfirst, hblanks⟩ := hhead rfl hstart
      have hbare : isBare first = true := hword.2 first (List.mem_cons_self ..)
      have hne : ∀ {c : Char}, isBare c = false → first ≠ c := by
        rintro c hc rfl
        rw [hc] at hbare
        cases hbare
      have hquote : ¬isQuote first = true := by
        rw [isQuote_eq_true]
        rintro (heq | heq)
        · exact hne (by decide) heq
        · exact hne (by decide) heq
      rw [Yields, valueOf_of_head hblanks hfirst, if_neg (hne (by decide)),
        if_neg (hne (by decide)), if_neg hquote]
      exact .inl <| onCursor_eq_ok.mpr ⟨readBare_eq_ok.mpr ⟨_, hword, rfl, htextPass, hstop⟩, hdepth⟩

end

/-- As many containers are inside each other in what is taken as there is room for. -/
theorem valueWithin_takes (limit room : Nat) :
    TakesAfterGap (valueWithin limit room) (ValueText room) := by
  induction room with
  | zero => exact valueOf_takes (refuse_takes limit) (refuse_takes limit)
  | succ room ih => exact valueOf_takes (compoundOf_takes ih) (listOf_takes ih)

/-- Every text that the grammar derives is taken, unless more containers are inside each
other in it than there is room for.  Then the limit may be the fault. -/
theorem valueWithin_accepts {excused : SyntaxFault → Prop} {limit room nesting : Nat}
    (h : room < nesting → excused (.tooDeep limit)) :
    AcceptsAfterGap excused (valueWithin limit room) (ValueText nesting) := by
  induction nesting generalizing room with
  | zero =>
      cases room with
      | zero => exact valueOf_accepts nofun nofun nofun nofun
      | succ room => exact valueOf_accepts nofun nofun nofun nofun
  | succ nesting ih =>
      have hbrace : ∀ ⦃text entries⦄, CompoundOf (ValueText nesting) text entries →
          text.head? = some '\x7b' := fun _ _ h => @CompoundText.head? (nesting + 1) _ _ h
      cases room with
      | zero =>
          have hexcused := h (Nat.succ_pos nesting)
          exact valueOf_accepts (refuse_accepts hexcused _) (refuse_accepts hexcused _) hbrace
            fun _ _ h => h.head?
      | succ room =>
          have hvalue := ih fun hlt => h (Nat.succ_lt_succ hlt)
          exact valueOf_accepts (compoundOf_accepts hvalue)
            (listOf_accepts hvalue fun _ _ h => h.start) hbrace fun _ _ h => h.head?

/-- Compounds are taken likewise. -/
theorem compoundWithin_takes (limit room : Nat) :
    Takes (compoundWithin limit room) (CompoundText room) := by
  cases room with
  | zero => exact refuse_takes limit
  | succ room => exact compoundOf_takes (valueWithin_takes limit room)

theorem compoundWithin_accepts {excused : SyntaxFault → Prop} (limit room : Nat) :
    Accepts excused (compoundWithin limit room) (CompoundText room) := by
  cases room with
  | zero => exact nofun
  | succ room =>
      exact compoundOf_accepts (valueWithin_accepts fun hlt => absurd hlt (Nat.lt_irrefl room))

end TreeQuery.Literal
