import Mathlib
import TreeQuery.Proofs.Literal.Limit
import TreeQuery.Proofs.Path.Faults

/-!
# Paths under a higher limit

The limit on open containers is a threshold (`limit_is_threshold`).  There is a least limit
under which a text is read without a refusal.  Under any lower limit the text is refused
because of it, and under any higher limit the outcome is the same.

Each filter of a path counts on its own, and other faults may come before or after the
deepest bracket.  This needs no argument of its own: a filter follows the same filter under
a higher limit, and what is read before and after it knows no limit.
-/

namespace TreeQuery.Path

open Reader

variable {low high : Nat}

theorem follows_readFilter (hle : low ≤ high) : Follows low (readFilter low) (readFilter high) :=
  Literal.follows_fromOutside (Literal.follows_readCompound hle)

theorem follows_readAfterKey (hle : low ≤ high) (name : String) :
    Follows low (readAfterKey low name) (readAfterKey high name) :=
  .after _ fun _ => ((follows_readFilter hle).before _).ite (.refl _)

theorem follows_readInside (hle : low ≤ high) : Follows low (readInside low) (readInside high) := by
  refine .after _ fun next => ?_
  split
  · exact .refl _
  · exact (follows_readFilter hle).before _
  · exact .refl _
  · exact .refl _

theorem follows_readBrackets (hle : low ≤ high) :
    Follows low (readBrackets low) (readBrackets high) :=
  .after _ fun _ => (follows_readInside hle).before _

theorem follows_readSelector (hle : low ≤ high) (first : Bool) :
    Follows low (readSelector low first) (readSelector high first) := by
  refine .after _ fun next => ?_
  split
  · exact ((follows_readFilter hle).before _).ite (.refl _)
  · exact follows_readBrackets hle
  · exact .ite (.after _ fun name => follows_readAfterKey hle name)
      (.after _ fun name => follows_readAfterKey hle name)

theorem follows_readSegments (hle : low ≤ high) (start : Nat) (first : Bool) (fuel : Nat) :
    Follows low (readSegments low start first fuel) (readSegments high start first fuel) := by
  induction fuel generalizing first with
  | zero => exact .refl _
  | succ fuel ih =>
      exact (follows_readSelector hle first).bind fun _ => .after _ fun _ => .after _ fun _ =>
        ((ih false).before _).ite (.refl _)

theorem follows_read (hle : low ≤ high) : Follows low (read low) (read high) :=
  .after _ fun start => (follows_readSegments hle start.position true _).before _

/-- The limit is the fault of a text that is no path. -/
def RefusedText (limit : Nat) (outcome : Except SyntaxError Path) : Prop :=
  ∃ position, outcome = .error ⟨.tooDeep limit, position⟩

theorem follows_parse (hle : low ≤ high) (text : String) :
    RefusedText low (parse text low) ∨ parse text low = parse text high := by
  have hwhole : Follows low (do
      let path ← read low
      if (← peek).isSome then fail .trailingInput else pure path : Reader Path) (do
      let path ← read high
      if (← peek).isSome then fail .trailingInput else pure path) :=
    (follows_read hle).before _
  unfold parse
  rcases hwhole (.atStart text.toList) with ⟨position, stop, hread⟩ | heq
  · refine .inl ⟨position, ?_⟩
    dsimp only
    rw [hread]
  · refine .inr ?_
    dsimp only
    rw [heq]

/-- A text that is refused a container is refused it because of the limit it is read under,
and that limit is less than the length of the text. -/
theorem refused_parse {text : String} {limit most : Nat}
    (h : RefusedText most (parse text limit)) : most = limit ∧ limit < text.toList.length := by
  obtain ⟨position, hparse⟩ := h
  obtain ⟨before, after, rfl, -, htrue⟩ := trueOf_of_parse_error hparse
  refine ⟨htrue.1, ?_⟩
  rw [String.toList_append]
  exact htrue.limit_lt

/-- **The limit on open containers is a threshold.**  For every text there is a bound.  Under
a lower limit the text is no path because of the limit.  Under all other limits it is the
same path, or is no path for one and the same other fault.  The same holds of a literal that
is read at a cursor, with the cursor where the reading ends. -/
theorem limit_is_threshold :
    (∀ text : String, ∃ bound, Threshold RefusedText (fun limit => parse text limit) bound)
      ∧ ∀ c : Cursor, ∃ bound, Threshold Refused (fun limit => Literal.read limit c) bound :=
  ⟨fun text => exists_threshold (fun hle => follows_parse hle text) (fun h => (refused_parse h).1)
      ⟨text.toList.length, fun h => Nat.lt_irrefl _ (refused_parse h).2⟩,
    Literal.exists_threshold_read⟩

/-- A path with two filters, of which the second one nests three containers. -/
example : (List.range 5).map (fun limit => (parse "a\x7bk:1\x7d[\x7bk:[[]]\x7d]" limit).isOk)
    = [false, false, false, true, true] := by
  cbv

end TreeQuery.Path
