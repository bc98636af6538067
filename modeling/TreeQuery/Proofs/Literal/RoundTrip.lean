import TreeQuery.Proofs.Literal.Writing

/-!
# Literals read back

What is written for a value is read as that value, up to the limit on open containers
(`read_write`).  The value may stand inside a larger text, as long as no bare character
follows it.

The nesting of a value is the least one at which the grammar derives what is written for
it.  A value that a text stands for is nested at most as deep as the grammar allows
(`ValueText.nesting_le`).  So a reader with a lower limit does not take the text.  It
reads what the grammar derives or blames its limit, so it blames its limit.
-/

namespace TreeQuery.Literal

open Reader Cursor

theorem nesting_le_of_read {limit : Nat} {before after : Cursor} {value : Value}
    (h : read limit before = .ok value after) : value.nesting ≤ limit := by
  obtain ⟨_, _, -, hfound, -⟩ := valueWithin_takes limit limit (read_eq_ok.mp h)
  exact hfound.nesting_le

section

variable {value : Value} (hkeyed : value.Keyed) (hreadable : value.isReadable = true)
  {limit : Nat} {before : Cursor} {rest : List Char}
  (hbefore : before.rest = write value ++ rest) (hstop : Stops isBare rest)

include hkeyed hreadable hbefore hstop

theorem read_write_of_le (hnesting : value.nesting ≤ limit) :
    read limit before
      = .ok value ⟨before.position + Text.byteLength (write value), rest⟩ := by
  have htext := valueText_write hkeyed hreadable hnesting
  exact read_of_valueText Gap.nil htext ⟨hbefore, rfl⟩ hstop

theorem read_write_of_lt (hnesting : limit < value.nesting) :
    ∃ position stop, read limit before = .error ⟨.tooDeep limit, position⟩ stop := by
  have htext := valueText_write hkeyed hreadable (Nat.le_refl value.nesting)
  have hpass : before.Passes ([] ++ write value)
      ⟨before.position + Text.byteLength (write value), rest⟩ := ⟨hbefore, rfl⟩
  obtain hread | ⟨error, stop, hfault, hread⟩ :=
    read_accepts (· = .tooDeep limit) (fun _ => rfl) Gap.nil htext hpass hstop
  · exact absurd (nesting_le_of_read hread) (Nat.not_le.mpr hnesting)
  · obtain ⟨fault, position⟩ := error
    obtain rfl : fault = .tooDeep limit := hfault
    exact ⟨position, stop, hread⟩

end

theorem parse_write {value : Value} (hkeyed : value.Keyed) (hreadable : value.isReadable = true) :
    parse value.literal = .ok value ↔ value.nesting ≤ defaultLimit := by
  rw [parse_eq_ok]
  constructor
  · rintro ⟨_, _, _, -, -, -, hfound⟩
    exact hfound.nesting_le
  · intro hnesting
    refine ⟨[], write value, [], ?_, Gap.nil, Gap.nil,
      valueText_write hkeyed hreadable hnesting⟩
    rw [Value.literal, String.toList_ofList, List.nil_append, List.append_nil]

/-- A value without a missing number and without positive infinity is read back, itself
and nothing after it, exactly when its containers are nested at most as deep as the limit
says.  When they are not, the limit is to blame. -/
theorem read_write {value : Value} (hkeyed : value.Keyed) (hreadable : value.isReadable = true) :
    (∀ (limit : Nat) (before : Cursor) (rest : List Char),
        before.rest = write value ++ rest → Stops isBare rest →
          (read limit before
              = .ok value ⟨before.position + Text.byteLength (write value), rest⟩
            ↔ value.nesting ≤ limit)
          ∧ (limit < value.nesting →
              ∃ position stop, read limit before = .error ⟨.tooDeep limit, position⟩ stop))
      ∧ (parse value.literal = .ok value ↔ value.nesting ≤ 512) := by
  refine ⟨fun limit before rest hbefore hstop => ⟨⟨fun hread => ?_, fun hnesting => ?_⟩,
    read_write_of_lt hkeyed hreadable hbefore hstop⟩, parse_write hkeyed hreadable⟩
  · exact nesting_le_of_read hread
  · exact read_write_of_le hkeyed hreadable hbefore hstop hnesting

/-- Two lists inside each other are refused by a reader that may open one. -/
theorem read_write_nested :
    (Value.list [.list [.scalar (.string "\"")]]).Keyed
      ∧ (Value.list [.list [.scalar (.string "\"")]]).isReadable = true
      ∧ (∃ position stop, read 1 (.atStart "[[\"\\\"\"]],".toList)
          = .error ⟨.tooDeep 1, position⟩ stop)
      ∧ parse "[[\"\\\"\"]]" = .ok (.list [.list [.scalar (.string "\"")]]) := by
  have hkeyed : (Value.list [.list [.scalar (.string "\"")]]).Keyed := by
    refine .list (List.forall_mem_singleton.mpr (.list (List.forall_mem_singleton.mpr .scalar)))
  have hreadable : (Value.list [.list [.scalar (.string "\"")]]).isReadable = true := rfl
  obtain ⟨hread, hparse⟩ := read_write hkeyed hreadable
  refine ⟨hkeyed, hreadable, ?_, hparse.mpr (by decide)⟩
  exact (hread 1 (.atStart "[[\"\\\"\"]],".toList) [','] rfl (by simp; decide)).2 (by decide)

end TreeQuery.Literal
