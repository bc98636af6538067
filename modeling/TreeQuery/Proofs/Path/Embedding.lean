import Mathlib
import TreeQuery.Proofs.Literal.Shift
import TreeQuery.Proofs.Path.Parsing

/-!
# Paths inside larger texts

A path is read from a cursor, so it can stand anywhere in a text.  What stands before
it shows in positions only (`tracks_read`).  Even the ends of its selectors are the
same, since they are counted from the start of the path: the loop over the selectors
takes them as differences to that position, and both shift together.

What follows a path does not show at all, as long as it starts with a space.  So a
path is read out of a larger text exactly when its own text is a path
(`read_embedded`).
-/

namespace TreeQuery.Path

open Reader Cursor Text

variable {count : Nat}

/-! ## Selectors further into a text -/

theorem tracks_readBareKey : Tracks count readBareKey readBareKey := by
  refine (tracks_readWhile isKeyChar).bind fun key => (tracks_pure _).ite ?_
  exact tracks_peek.bind fun _ => tracks_fail _

theorem tracks_readFilter (limit : Nat) : Tracks count (readFilter limit) (readFilter limit) :=
  Literal.Tracks.fromOutside (Literal.tracks_readCompound limit)

theorem tracks_readAfterKey (limit : Nat) (name : String) :
    Tracks count (readAfterKey limit name) (readAfterKey limit name) := by
  refine tracks_peek.bind fun next => Tracks.ite ?_ (tracks_pure _)
  exact (tracks_readFilter limit).bind fun _ => tracks_pure _

theorem tracks_readIndex : Tracks count readIndex readIndex := by
  intro cursor
  unfold readIndex
  rw [tracks_readInteger cursor]
  cases readInteger cursor with
  | ok index after => rfl
  | error error after =>
      obtain ⟨fault, position⟩ := error
      cases fault <;> rfl

theorem tracks_readInside (limit : Nat) : Tracks count (readInside limit) (readInside limit) := by
  refine tracks_peek.bind fun next => ?_
  split
  · exact tracks_fail _
  · exact (tracks_readFilter limit).bind fun _ => tracks_pure _
  · exact tracks_pure _
  · exact tracks_readIndex.bind fun _ => tracks_pure _

theorem tracks_readBrackets (limit : Nat) :
    Tracks count (readBrackets limit) (readBrackets limit) := by
  refine (tracks_expect '[').bind fun _ => (tracks_readInside limit).bind fun selector => ?_
  exact (tracks_expect ']').bind fun _ => tracks_pure selector

theorem tracks_readSelector (limit : Nat) (first : Bool) :
    Tracks count (readSelector limit first) (readSelector limit first) := by
  refine tracks_peek.bind fun next => ?_
  split
  · exact ((tracks_readFilter limit).bind fun _ => tracks_pure _).ite (tracks_fail _)
  · exact tracks_readBrackets limit
  · exact (tracks_readQuoted.bind fun name => tracks_readAfterKey limit name).ite
      (tracks_readBareKey.bind fun name => tracks_readAfterKey limit name)

theorem tracks_readJoint : Tracks count readJoint readJoint := by
  refine tracks_peek.bind fun next => ?_
  split
  · exact tracks_pure false
  · exact tracks_pure false
  · exact tracks_pure true
  · exact tracks_pure true
  · exact (tracks_expect '.').bind fun _ => tracks_pure true

/-! ## Whole paths further into a text -/

/-- The start of the path shifts with everything else. -/
theorem tracks_readSegments (limit start : Nat) (first : Bool) (fuel : Nat) :
    Tracks count (readSegments limit start first fuel)
      (readSegments limit (start + count) first fuel) := by
  induction fuel generalizing first with
  | zero => exact tracks_fail _
  | succ fuel ih =>
      refine (tracks_readSelector limit first).bind fun selector => Tracks.of_get fun cursor => ?_
      have hstop : (Placed.shift count cursor).position - (start + count)
          = cursor.position - start := Nat.add_sub_add_right ..
      rw [hstop]
      refine tracks_readJoint.bind fun more => Tracks.ite ?_ (tracks_pure _)
      exact (ih false).bind fun rest => tracks_pure _

theorem tracks_read (limit : Nat) : Tracks count (read limit) (read limit) := by
  refine Tracks.of_get fun start => ?_
  have hsegments : Tracks count _ _ :=
    tracks_readSegments limit start.position true (start.rest.length + 1)
  refine hsegments.bind fun segments => ?_
  exact Tracks.of_get fun stop => tracks_pure _

/-! ## What stands around a path -/

theorem seek_append (before after : List Char) :
    Cursor.seek (before ++ after) (byteLength before) = ⟨byteLength before, after⟩ := by
  have hmin : min (byteLength before) (byteLength (before ++ after)) = byteLength before := by
    rw [byteLength_append]
    omega
  rw [Cursor.seek, hmin, splitBytes?_byteLength_append]

/-- Reading a path does not depend on what surrounds it.

With more text before the cursor the outcome is the same, but for the position of the
cursor it leaves and of its error.  A text that is a path is read as that path before a
space and at the end of a text.  And if a path is read, the text up to where it ends is
that path, and it ends before a space or at the end of the text. -/
theorem read_embedded (limit : Nat) :
    (∀ before text : String,
        read limit (.seek (before ++ text).toList (byteLength before.toList))
          = shiftOutcome (byteLength before.toList) (read limit (.atStart text.toList)))
      ∧ (∀ (text following : String) (path : Path), EndsPath following.toList →
          parse text limit = .ok path →
          read limit (.atStart (text ++ following).toList)
            = .ok path ⟨byteLength text.toList, following.toList⟩)
      ∧ ∀ (text : String) (path : Path) (stop : Cursor),
          read limit (.atStart text.toList) = .ok path stop →
          ∃ beginning following : String, text = beginning ++ following
            ∧ stop = ⟨byteLength beginning.toList, following.toList⟩
            ∧ EndsPath following.toList ∧ parse beginning limit = .ok path := by
  refine ⟨fun before text => ?_, fun text following path hends hparse => ?_,
    fun text path stop hread => ?_⟩
  · rw [String.toList_append, seek_append, ← tracks_read limit]
    exact congrArg (fun place => read limit ⟨place, text.toList⟩) (Nat.zero_add _).symm
  · obtain ⟨htext, hderives⟩ := parse_eq_ok.mp hparse
    refine read_eq_ok.mpr ⟨text.toList, ?_, hderives, ⟨?_, (Nat.zero_add _).symm⟩, hends⟩
    · rw [htext, String.ofList_toList]
    · exact String.toList_append
  · obtain ⟨beginning, htext, hderives, ⟨hrest, hposition⟩, hends⟩ := read_eq_ok.mp hread
    refine ⟨String.ofList beginning, String.ofList stop.rest, ?_, ?_, ?_, ?_⟩
    · rw [← String.ofList_append, ← hrest]
      exact String.ofList_toList.symm
    · rw [String.toList_ofList, String.toList_ofList, ← (Nat.zero_add _ : _ = byteLength beginning)]
      exact congrArg (Cursor.mk · stop.rest) hposition
    · rw [String.toList_ofList]
      exact hends
    · refine parse_eq_ok.mpr ⟨htext, ?_⟩
      rw [String.toList_ofList]
      exact hderives

/-- A space in quotes does not end a path, and the one after it does. -/
theorem read_embedded_in_command :
    let path : Path := ⟨"a.'b c'[-1]", [⟨.child "a", 1⟩, ⟨.child "b c", 7⟩, ⟨.element (-1), 11⟩]⟩
    parse path.text = .ok path
      ∧ read Literal.defaultLimit (.seek ("dé " ++ (path.text ++ " 1")).toList 4)
          = .ok path ⟨15, " 1".toList⟩ := by
  intro path
  have hparse : parse path.text = .ok path := by cbv
  obtain ⟨hbefore, hfollowing, -⟩ := read_embedded Literal.defaultLimit
  have hends : EndsPath " 1".toList := fun c hc => (Option.some.inj hc).symm
  have hread := hfollowing path.text " 1" path hends hparse
  refine ⟨hparse, (hbefore "dé " (path.text ++ " 1")).trans ?_⟩
  have hplace : byteLength path.text.toList + 4 = 15 := by decide
  rw [hread, ← hplace]
  rfl

end TreeQuery.Path
