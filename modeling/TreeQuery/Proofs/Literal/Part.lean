import TreeQuery.Proofs.Literal.Grammar

/-!
# What stands in containers

The laws of the readers that make up a reader of containers, in the form of those
of `Reader`: a reader succeeds exactly when the text it passes is of a given form.
-/

namespace TreeQuery.Literal

open Reader Cursor

/-! ## Reading with a count of open containers -/

theorem onCursor_eq_ok {α : Type} {read : Reader α} {s s' : LiteralState} {a : α} :
    onCursor read s = .ok a s' ↔ read s.cursor = .ok a s'.cursor ∧ s'.depth = s.depth := by
  obtain ⟨cursor, depth⟩ := s
  obtain ⟨cursor', depth'⟩ := s'
  simp only [onCursor]
  cases read cursor with
  | ok b c => simp [eq_comm, and_assoc]
  | error e c => simp

theorem modify_eq_ok {ε σ : Type} {change : σ → σ} {s s' : σ} {u : Unit} :
    (modify change : EStateM ε σ Unit) s = .ok u s' ↔ s' = change s := by
  show EStateM.Result.ok () (change s) = .ok u s' ↔ _
  simp [eq_comm]

theorem fail_onCursor_ne_ok {α : Type} {fault : SyntaxFault} {s s' : LiteralState} {a : α} :
    onCursor (fail fault) s ≠ .ok a s' := by
  intro h
  exact absurd (onCursor_eq_ok.mp h).1 fail_ne_ok

/-! ## Keys, signs and commas -/

theorem readKey_eq_ok {before after : Cursor} {name : String} :
    readKey before = .ok name after ↔ ∃ gap text, Gap gap ∧ before.Passes (gap ++ text) after
      ∧ (QuotedText text name
        ∨ BareWord text ∧ String.ofList text = name ∧ Stops isBare after.rest) := by
  simp only [readKey, bind_eq_ok]
  constructor
  · rintro ⟨_, c₁, hblanks, next, c₂, hpeek, h⟩
    obtain ⟨gap, hgap, hpass, -⟩ := skipBlanks_eq_ok.mp hblanks
    obtain ⟨rfl, rfl⟩ := peek_eq_ok.mp hpeek
    split at h
    · obtain ⟨text, hquoted, htext⟩ := readQuoted_eq_ok.mp h
      exact ⟨gap, text, hgap, hpass.append htext, .inl hquoted⟩
    · obtain ⟨word, c₃, hword, h⟩ := bind_eq_ok.mp h
      obtain ⟨htext, hall, hstops⟩ := readWhile_eq_ok.mp hword
      split at h
      · next hne =>
        obtain ⟨hname, rfl⟩ := pure_eq_ok.mp h
        exact ⟨gap, word, hgap, hpass.append htext, .inr ⟨⟨hne, hall⟩, hname, hstops⟩⟩
      · split at h
        · exact absurd h fail_ne_ok
        · exact absurd h fail_ne_ok
  · rintro ⟨gap, text, hgap, hpass, h⟩
    obtain ⟨middle, hgapPass, htext⟩ := passes_append.mp hpass
    have hstart : IsStart text := by
      rcases h with hquoted | ⟨hword, -, -⟩
      · exact start_of_quotedText hquoted
      · exact hword.start
    have hhead : middle.rest = text ++ after.rest := htext.1
    have hstops : Stops Text.isBlank middle.rest := by
      rw [hhead]
      exact (hstart.append _).stops_isBlank
    refine ⟨(), middle, skipBlanks_eq_ok.mpr ⟨gap, hgap, hgapPass, hstops⟩, _, _,
      peek_eq_ok.mpr ⟨rfl, rfl⟩, ?_⟩
    rcases h with hquoted | ⟨hword, hname, hstop⟩
    · have hquote : middle.rest.head?.any isQuote = true := by
        cases hquoted with
        | mk hquote => simp [hhead, hquote]
      rw [if_pos hquote]
      exact readQuoted_eq_ok.mpr ⟨text, hquoted, htext⟩
    · have hquote : ¬middle.rest.head?.any isQuote = true := by
        obtain ⟨hne, hall⟩ := hword
        cases text with
        | nil => exact absurd rfl hne
        | cons c rest =>
            have hc : isBare c = true := hall c (List.mem_cons_self ..)
            rw [hhead]
            simp only [List.cons_append, List.head?_cons, Option.any_some, isQuote_eq_true]
            rintro (rfl | rfl)
            · exact absurd hc (by decide)
            · exact absurd hc (by decide)
      rw [if_neg hquote]
      refine bind_eq_ok.mpr ⟨text, after, readWhile_eq_ok.mpr ⟨htext, hword.2, hstop⟩, ?_⟩
      rw [if_pos hword.1]
      exact pure_eq_ok.mpr ⟨hname, rfl⟩

theorem readKeyMark_eq_ok {before after : Cursor} {u : Unit} :
    readKeyMark before = .ok u after
      ↔ ∃ gap mark, Gap gap ∧ (mark = ':' ∨ mark = '=')
          ∧ before.Passes (gap ++ [mark]) after := by
  simp only [readKeyMark, bind_eq_ok]
  constructor
  · rintro ⟨_, middle, hblanks, found, c, hpeek, h⟩
    obtain ⟨gap, hgap, hpass, -⟩ := skipBlanks_eq_ok.mp hblanks
    obtain ⟨rfl, rfl⟩ := peek_eq_ok.mp hpeek
    split at h
    · next hfound =>
      rcases hfound with hfound | hfound
      · exact ⟨gap, ':', hgap, .inl rfl, hpass.append ((skip_eq_ok hfound).mp h)⟩
      · exact ⟨gap, '=', hgap, .inr rfl, hpass.append ((skip_eq_ok hfound).mp h)⟩
    · exact absurd h fail_ne_ok
  · rintro ⟨gap, mark, hgap, hmark, hpass⟩
    obtain ⟨middle, hgapPass, hmarkPass⟩ := passes_append.mp hpass
    have hhead : middle.rest.head? = some mark := by rw [hmarkPass.1]; rfl
    have hstops : Stops Text.isBlank middle.rest := by
      rw [hmarkPass.1, List.singleton_append, stops_cons]
      rcases hmark with rfl | rfl
      · decide
      · decide
    refine ⟨(), middle, skipBlanks_eq_ok.mpr ⟨gap, hgap, hgapPass, hstops⟩, _, _,
      peek_eq_ok.mpr ⟨rfl, rfl⟩, ?_⟩
    have hfound : middle.rest.head? = some ':' ∨ middle.rest.head? = some '=' := by
      rcases hmark with rfl | rfl
      · exact .inl hhead
      · exact .inr hhead
    rw [if_pos hfound]
    exact (skip_eq_ok hhead).mpr hmarkPass

/-- A comma is found with the gaps around it, unless a closing bracket follows. -/
theorem readSeparator_eq_ok_true {close : Char} {before after : Cursor} :
    readSeparator close before = .ok true after
      ↔ ∃ gap gap', Gap gap ∧ Gap gap' ∧ before.Passes (gap ++ ',' :: gap') after
          ∧ Stops Text.isBlank after.rest ∧ after.rest.head? ≠ some close := by
  simp only [readSeparator, bind_eq_ok]
  constructor
  · rintro ⟨_, middle, hblanks, found, c, hpeek, h⟩
    obtain ⟨gap, hgap, hpass, -⟩ := skipBlanks_eq_ok.mp hblanks
    obtain ⟨rfl, rfl⟩ := peek_eq_ok.mp hpeek
    split at h
    · next hcomma =>
      simp only [bind_eq_ok] at h
      obtain ⟨_, c₁, hskip, _, c₂, hblanks', next, c₃, hpeek', h⟩ := h
      have hcommaPass := (skip_eq_ok hcomma).mp hskip
      obtain ⟨gap', hgap', hpass', hstops'⟩ := skipBlanks_eq_ok.mp hblanks'
      obtain ⟨rfl, rfl⟩ := peek_eq_ok.mp hpeek'
      split at h
      · exact absurd h fail_ne_ok
      · next hclose =>
        obtain ⟨-, rfl⟩ := pure_eq_ok.mp h
        exact ⟨gap, gap', hgap, hgap', hpass.append (hcommaPass.append hpass'), hstops', hclose⟩
    · split at h
      · cases (pure_eq_ok.mp h).1
      · exact absurd h fail_ne_ok
  · rintro ⟨gap, gap', hgap, hgap', hpass, hstops, hclose⟩
    obtain ⟨middle, hgapPass, htail⟩ := passes_append.mp hpass
    obtain ⟨c₁, hcommaPass, hgapPass'⟩ := passes_cons.mp htail
    have hcomma : middle.rest.head? = some ',' := by rw [hcommaPass.1]; rfl
    have hstops' : Stops Text.isBlank middle.rest := by
      rw [hcommaPass.1, List.singleton_append, stops_cons]
      decide
    refine ⟨(), middle, skipBlanks_eq_ok.mpr ⟨gap, hgap, hgapPass, hstops'⟩, _, _,
      peek_eq_ok.mpr ⟨rfl, rfl⟩, ?_⟩
    rw [if_pos hcomma]
    simp only [bind_eq_ok]
    refine ⟨(), c₁, (skip_eq_ok hcomma).mpr hcommaPass, (), after,
      skipBlanks_eq_ok.mpr ⟨gap', hgap', hgapPass', hstops⟩, _, _, peek_eq_ok.mpr ⟨rfl, rfl⟩, ?_⟩
    rw [if_neg hclose]
    exact pure_eq_ok.mpr ⟨rfl, rfl⟩

/-- The end of the parts is found where the closing bracket comes after a gap. -/
theorem readSeparator_eq_ok_false {close : Char} (hclose : close ≠ ',')
    (hblank : Text.isBlank close = false) {before after : Cursor} :
    readSeparator close before = .ok false after
      ↔ ∃ gap, Gap gap ∧ before.Passes gap after ∧ after.rest.head? = some close := by
  simp only [readSeparator, bind_eq_ok]
  constructor
  · rintro ⟨_, middle, hblanks, found, c, hpeek, h⟩
    obtain ⟨gap, hgap, hpass, -⟩ := skipBlanks_eq_ok.mp hblanks
    obtain ⟨rfl, rfl⟩ := peek_eq_ok.mp hpeek
    split at h
    · simp only [bind_eq_ok] at h
      obtain ⟨_, _, _, _, _, _, _, _, _, h⟩ := h
      split at h
      · exact absurd h fail_ne_ok
      · cases (pure_eq_ok.mp h).1
    · split at h
      · next hfound =>
        obtain ⟨-, rfl⟩ := pure_eq_ok.mp h
        exact ⟨gap, hgap, hpass, hfound⟩
      · exact absurd h fail_ne_ok
  · rintro ⟨gap, hgap, hpass, hhead⟩
    have hstops : Stops Text.isBlank after.rest := by
      intro c hc
      rw [hhead, Option.mem_some_iff] at hc
      subst hc
      exact hblank
    refine ⟨(), after, skipBlanks_eq_ok.mpr ⟨gap, hgap, hpass, hstops⟩, _, _,
      peek_eq_ok.mpr ⟨rfl, rfl⟩, ?_⟩
    have hcomma : ¬after.rest.head? = some ',' := by
      rw [hhead, Option.some.injEq]
      exact hclose
    rw [if_neg hcomma, if_pos hhead]
    exact pure_eq_ok.mpr ⟨rfl, rfl⟩

theorem readBare_eq_ok {before after : Cursor} {value : Value} :
    readBare before = .ok value after ↔ ∃ word, BareWord word ∧ value = .scalar (bareScalar word)
      ∧ before.Passes word after ∧ Stops isBare after.rest := by
  simp only [readBare, bind_eq_ok]
  constructor
  · rintro ⟨word, middle, hread, h⟩
    obtain ⟨hpass, hall, hstops⟩ := readWhile_eq_ok.mp hread
    split at h
    · exact absurd h fail_ne_ok
    · next hne =>
      obtain ⟨rfl, rfl⟩ := pure_eq_ok.mp h
      exact ⟨word, ⟨hne, hall⟩, rfl, hpass, hstops⟩
  · rintro ⟨word, hword, rfl, hpass, hstops⟩
    refine ⟨word, after, readWhile_eq_ok.mpr ⟨hpass, hword.2, hstops⟩, ?_⟩
    rw [if_neg hword.1]
    exact pure_eq_ok.mpr ⟨rfl, rfl⟩

end TreeQuery.Literal
