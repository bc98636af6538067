import TreeQuery.Proofs.Faults
import TreeQuery.Proofs.Literal.Completion

/-!
# The faults of literals

Where a reader of literals fails, the fault is true of its place.  There is one law here
for each reader that can fail, as for `FailsAfter`.

A container is refused at its opening bracket, when as many are open as the limit allows.
So the laws of values say how many are open where they start, and count with the room
that is left for more.  The fuel of the loop over parts does not run out, because every
part but the last is followed by a comma.
-/

namespace TreeQuery.Literal

open Reader Cursor

section

variable {limit opened : Nat} {c : Cursor}

theorem truthful_readKey : Truthful limit opened c (readKey c) := by
  refine truthful_afterBlanks fun c₁ => truthful_afterPeek ?_
  split
  · exact truthful_readQuoted
  · refine truthful_afterRun fun word c₂ hpass hstops => ?_
    split
    · trivial
    · next hnil =>
      obtain rfl : word = [] := Decidable.of_not_not hnil
      obtain rfl := passes_nil.mp hpass
      split
      · next hsome => exact truthful_fail ⟨List.isSome_head?.mp hsome, hstops⟩
      · next hnone =>
        exact truthful_fail (List.head?_eq_none_iff.mp (Option.not_isSome_iff_eq_none.mp hnone))

theorem truthful_readKeyMark : Truthful limit opened c (readKeyMark c) := by
  refine truthful_afterBlanks fun c₁ => truthful_afterPeek ?_
  split
  · exact truthful_skip
  · next hmark => exact truthful_fail ⟨rfl, fun hcolon => hmark (.inl hcolon)⟩

theorem truthful_readSeparator (close : Char) :
    Truthful limit opened c (readSeparator close c) := by
  refine truthful_afterBlanks fun c₁ => truthful_afterPeek ?_
  split
  · next hcomma =>
    refine truthful_afterSkip hcomma fun c₂ _ => truthful_afterBlanks fun c₃ => ?_
    refine truthful_afterPeek ?_
    split
    · next hclose => exact truthful_fail hclose
    · trivial
  · split
    · trivial
    · next hclose => exact truthful_fail ⟨rfl, hclose⟩

theorem truthful_readBare (hhead : c.rest ≠ []) : Truthful limit opened c (readBare c) := by
  refine truthful_afterRun fun word c₁ hpass hstops => ?_
  split
  · next hnil =>
    subst hnil
    obtain rfl := passes_nil.mp hpass
    exact truthful_fail ⟨hhead, hstops⟩
  · trivial

end

/-! ## The parts of containers -/

theorem truthful_onCursor {α : Type} {limit opened : Nat} {origin : Cursor} {read : Reader α}
    {s : LiteralState} (h : Truthful limit opened origin (read s.cursor)) :
    Truthful limit opened origin (onCursor read s) := by
  rw [onCursor]
  generalize read s.cursor = outcome at h
  cases outcome with
  | ok a c => trivial
  | error error c => exact h

/-- The faults of the reader are true, where it starts with as many open containers as
given. -/
def TruthfulAt {α : Type} (limit opened : Nat) (read : LiteralReader α) : Prop :=
  ∀ s : LiteralState, s.depth = opened → Truthful limit opened s.cursor (read s)

section

variable {α : Type} {limit opened : Nat}

theorem truthful_readEntry {value : LiteralReader Value} (hvalue : TruthfulAt limit opened value) :
    TruthfulAt limit opened (readEntry value) := by
  intro s hdepth
  refine Truthful.bind (truthful_onCursor truthful_readKey) fun name s₁ hkey => ?_
  obtain ⟨hkey, hdepth₁⟩ := onCursor_eq_ok.mp hkey
  obtain ⟨gap, key, -, hkeyPass, -⟩ := readKey_eq_ok.mp hkey
  refine Truthful.after ?_ hkeyPass
  refine Truthful.bind (truthful_onCursor truthful_readKeyMark) fun _ s₂ hmark => ?_
  obtain ⟨hmark, hdepth₂⟩ := onCursor_eq_ok.mp hmark
  obtain ⟨before, mark, -, -, hmarkPass⟩ := readKeyMark_eq_ok.mp hmark
  refine Truthful.after (Truthful.map (hvalue s₂ ?_) _) hmarkPass
  rw [hdepth₂, hdepth₁, hdepth]

variable {close : Char} {part : LiteralReader α} {partText : List Char → α → Prop}

/-- The fuel does not run out where it is more than the length of what is left. -/
theorem truthful_readParts (htakes : TakesAfterGap part partText)
    (hpart : TruthfulAt limit opened part) :
    ∀ fuel s, s.cursor.rest.length < fuel → s.depth = opened →
      Truthful limit opened s.cursor (readParts close part fuel s)
  | 0, s, hfuel, _ => absurd hfuel (Nat.not_lt_zero _)
  | fuel + 1, s, hfuel, hdepth => by
      refine Truthful.bind (hpart s hdepth) fun first s₁ hfirst => ?_
      obtain ⟨gap, text, -, -, hpass, hdepth₁⟩ := htakes hfirst
      refine Truthful.after ?_ hpass
      refine Truthful.bind (truthful_onCursor (truthful_readSeparator close))
        fun more s₂ hmore => ?_
      obtain ⟨hmore, hdepth₂⟩ := onCursor_eq_ok.mp hmore
      cases more with
      | false => trivial
      | true =>
          obtain ⟨gap₁, gap₂, -, -, hsepPass, -⟩ := readSeparator_eq_ok_true.mp hmore
          have hfuel' : s₂.cursor.rest.length < fuel := by
            have hlength := congrArg List.length (hpass.append hsepPass).1
            simp only [List.length_append, List.length_cons] at hlength
            omega
          have hrest := truthful_readParts htakes hpart fuel s₂ hfuel'
            (hdepth₂.trans (hdepth₁.trans hdepth))
          exact (hrest.map _).after hsepPass

theorem truthful_readPartsUntil (htakes : TakesAfterGap part partText)
    (hpart : TruthfulAt limit opened part) :
    TruthfulAt limit opened (readPartsUntil close part) := by
  intro s hdepth
  have hpeek : onCursor peek s = .ok s.cursor.rest.head? s := rfl
  refine truthful_of_ok hpeek ?_
  split
  · trivial
  · exact truthful_of_ok (get_eq_ok.mpr ⟨rfl, rfl⟩)
      (truthful_readParts htakes hpart _ s (Nat.lt_succ_self _) hdepth)

/-! ## Containers and values -/

theorem truthful_readContainer {opening : Char} (hclose : Closes close)
    (htakes : TakesAfterGap part partText) (hpart : TruthfulAt limit (opened + 1) part) :
    TruthfulAt limit opened (readContainer opening close part) := by
  intro s hdepth
  have hopened :
      (modify fun state => { state with depth := state.depth + 1 } : LiteralReader Unit) s
        = .ok () ⟨s.cursor, s.depth + 1⟩ := rfl
  refine truthful_of_ok hopened ?_
  refine Truthful.bind (truthful_onCursor (truthful_expect opening)) fun _ s₁ hopen => ?_
  obtain ⟨hopen, hdepth₁⟩ := onCursor_eq_ok.mp hopen
  -- The opening bracket that is passed makes up for the container that is open now.
  refine Truthful.passed ?_ (expect_eq_ok.mp hopen) (Nat.le_refl (opened + 1))
  obtain ⟨gap, c, hblanks, -, hgapPass⟩ := skipBlanks_passes s₁.cursor
  have hskip : onCursor skipBlanks s₁ = .ok () ⟨c, s₁.depth⟩ := onCursor_eq_ok.mpr ⟨hblanks, rfl⟩
  refine truthful_of_ok hskip (Truthful.after ?_ hgapPass)
  have hparts : Truthful limit (opened + 1) c (readPartsUntil close part ⟨c, s₁.depth⟩) :=
    truthful_readPartsUntil htakes hpart _ (hdepth₁.trans (congrArg (· + 1) hdepth))
  refine Truthful.bind hparts fun as s₂ has => ?_
  obtain ⟨text, hpass, -⟩ := readPartsUntil_takes hclose htakes has opening .nil
  refine Truthful.after ?_ hpass
  exact Truthful.bind (truthful_onCursor (truthful_expect close)) fun _ _ _ => trivial

theorem truthful_compoundOf {value : LiteralReader Value} {valueText : List Char → Value → Prop}
    (htakes : TakesAfterGap value valueText) (hvalue : TruthfulAt limit (opened + 1) value) :
    TruthfulAt limit opened (compoundOf value) := by
  intro s hdepth
  have hcontainer : Truthful limit opened s.cursor
      (readContainer '\x7b' '\x7d' (readEntry value) s) :=
    truthful_readContainer closes_brace (readEntry_takes htakes) (truthful_readEntry hvalue) s
      hdepth
  exact hcontainer.map _

theorem truthful_refuse {s : LiteralState} (hdepth : s.depth = limit)
    (hhead : s.cursor.rest.head? = some '\x7b' ∨ s.cursor.rest.head? = some '[') :
    Truthful limit s.depth s.cursor (refuse limit s : EStateM.Result _ _ α) :=
  truthful_onCursor (truthful_fail ⟨rfl, Nat.le_of_eq hdepth.symm, hhead⟩)

theorem truthful_valueOf {compound : LiteralReader Compound} {list : LiteralReader (List Value)}
    (hcompound : ∀ s : LiteralState, s.depth = opened → s.cursor.rest.head? = some '\x7b' →
      Truthful limit opened s.cursor (compound s))
    (hlist : ∀ s : LiteralState, s.depth = opened → s.cursor.rest.head? = some '[' →
      Truthful limit opened s.cursor (list s)) :
    TruthfulAt limit opened (valueOf compound list) := by
  intro s hdepth
  obtain ⟨gap, c, hblanks, -, hpass⟩ := skipBlanks_passes s.cursor
  suffices h : Truthful limit opened c (valueOf compound list s) from h.after hpass
  cases hfirst : c.rest.head? with
  | none =>
      rw [valueOf_of_end hblanks hfirst]
      exact truthful_onCursor (s := ⟨c, s.depth⟩) (truthful_fail (List.head?_eq_none_iff.mp hfirst))
  | some first =>
      rw [valueOf_of_head hblanks hfirst]
      split
      · next hbrace =>
        subst hbrace
        exact Truthful.map (hcompound ⟨c, s.depth⟩ hdepth hfirst) _
      · split
        · next hbracket =>
          subst hbracket
          exact Truthful.map (hlist ⟨c, s.depth⟩ hdepth hfirst) _
        · split
          · exact Truthful.map (truthful_onCursor truthful_readQuoted) _
          · have hrest : c.rest ≠ [] := List.ne_nil_of_mem (List.mem_of_head? hfirst)
            exact truthful_onCursor (s := ⟨c, s.depth⟩) (truthful_readBare hrest)

/-- The room for more containers and those that are open make up the limit. -/
theorem truthful_valueWithin (room : Nat) :
    ∀ opened, opened + room = limit → TruthfulAt limit opened (valueWithin limit room) := by
  induction room with
  | zero =>
      rintro opened rfl
      refine truthful_valueOf ?_ ?_
      · rintro s rfl hhead
        exact truthful_refuse rfl (.inl hhead)
      · rintro s rfl hhead
        exact truthful_refuse rfl (.inr hhead)
  | succ room ih =>
      intro opened hroom
      have hvalue := ih (opened + 1) (by omega)
      have htakes := valueWithin_takes limit room
      exact truthful_valueOf (fun s hdepth _ => truthful_compoundOf htakes hvalue s hdepth)
        fun s hdepth _ => truthful_readContainer closes_bracket htakes hvalue s hdepth

theorem truthful_compoundWithin {room : Nat} {s : LiteralState} (hroom : s.depth + room = limit)
    (hhead : s.cursor.rest.head? = some '\x7b') :
    Truthful limit s.depth s.cursor (compoundWithin limit room s) := by
  cases room with
  | zero => exact truthful_refuse hroom (.inl hhead)
  | succ room =>
      have hvalue : TruthfulAt limit (s.depth + 1) (valueWithin limit room) :=
        truthful_valueWithin room _ (by omega)
      exact truthful_compoundOf (valueWithin_takes limit room) hvalue s rfl

/-! ## Whole texts -/

theorem truthful_fromOutside {read : LiteralReader α} {c : Cursor}
    (h : Truthful limit opened c (read ⟨c, 0⟩)) :
    Truthful limit opened c (fromOutside read c) := by
  rw [fromOutside]
  generalize read ⟨c, 0⟩ = outcome at h
  cases outcome with
  | ok a s => trivial
  | error error s => exact h

end

theorem truthful_read (limit : Nat) (c : Cursor) : Truthful limit 0 c (read limit c) :=
  truthful_fromOutside (truthful_valueWithin limit 0 (Nat.zero_add limit) ⟨c, 0⟩ rfl)

/-- A literal ends here, and text follows it. -/
def EndsLiteral (before after : String) : Prop :=
  (∃ value, parse before = .ok value) ∧ after ≠ ""

/-- The error of a text that is refused as a literal is true of the text. -/
theorem trueOf_of_parse_error {text : String} {error : SyntaxError}
    (h : parse text = .error error) : error.TrueOf defaultLimit EndsLiteral text := by
  unfold parse at h
  dsimp only at h
  split at h
  · cases h
  next found stop hwhole =>
  obtain rfl := Except.error.inj h
  rcases bind_eq_error.mp hwhole with hread | ⟨value, c, hread, hwhole⟩
  · have htrue := truthful_read defaultLimit (.atStart text.toList)
    rw [hread] at htrue
    exact htrue.trueOf
  obtain ⟨gap, inner, hgap, hinner, hpass, -⟩ :=
    valueWithin_takes defaultLimit defaultLimit (read_eq_ok.mp hread)
  obtain ⟨gap', c₁, hblanks, hgap', hgapPass⟩ := skipBlanks_passes c
  have hpeek : peek c₁ = .ok c₁.rest.head? c₁ := rfl
  rw [bind_of_ok hblanks, bind_of_ok hpeek] at hwhole
  split at hwhole
  · next hsome =>
    obtain ⟨rfl, rfl⟩ := EStateM.Result.error.inj hwhole
    refine trueOf_of_passes (hpass.append hgapPass) ⟨⟨value, ?_⟩, ?_⟩
    · exact parse_eq_ok.mpr ⟨gap, inner, gap', String.toList_ofList, hgap, hgap', hinner⟩
    · intro hnil
      exact List.isSome_head?.mp hsome (String.ofList_eq_empty_iff.mp hnil)
  · cases hwhole

end TreeQuery.Literal
