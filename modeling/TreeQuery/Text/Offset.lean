/-!
# Byte offsets in a list of characters

Positions in a text are counted in bytes of its UTF-8 form, while the text is
read as a list of characters.  These functions go from one to the other.  An
offset may fall inside a character.  Then the text has no split there, and
`splitBytes?` says so.

`splitBytes?_byteLength_append` says that a text splits at the length of any of
its beginnings, and `append_of_splitBytes?` that it splits nowhere else.
-/

namespace TreeQuery.Text

/-- The number of bytes of the characters. -/
def byteLength : List Char → Nat
  | [] => 0
  | c :: rest => c.utf8Size + byteLength rest

/-- The text before a byte offset and the text after it, none when the offset is
inside a character or past the end. -/
def splitBytes? : Nat → List Char → Option (List Char × List Char)
  | 0, text => some ([], text)
  | _ + 1, [] => none
  | offset + 1, c :: rest =>
      if c.utf8Size ≤ offset + 1 then
        (splitBytes? (offset + 1 - c.utf8Size) rest).map fun (before, after) => (c :: before, after)
      else none

/-- How many characters start before a byte offset. -/
def column (offset : Nat) : List Char → Nat
  | [] => 0
  | c :: rest => if 0 < offset then column (offset - c.utf8Size) rest + 1 else 0

@[simp] theorem byteLength_nil : byteLength [] = 0 := rfl

@[simp] theorem byteLength_cons (c : Char) (rest : List Char) :
    byteLength (c :: rest) = c.utf8Size + byteLength rest := rfl

@[simp] theorem byteLength_append (before after : List Char) :
    byteLength (before ++ after) = byteLength before + byteLength after := by
  induction before with
  | nil => simp
  | cons c before ih => simp [ih, Nat.add_assoc]

/-- A text splits after each of its beginnings. -/
theorem splitBytes?_byteLength_append (before after : List Char) :
    splitBytes? (byteLength before) (before ++ after) = some (before, after) := by
  induction before with
  | nil => simp [splitBytes?]
  | cons c before ih =>
      have hc := c.utf8Size_pos
      obtain ⟨k, hk⟩ : ∃ k, byteLength (c :: before) = k + 1 :=
        ⟨byteLength (c :: before) - 1, by simp only [byteLength_cons]; omega⟩
      have hle : c.utf8Size ≤ k + 1 := by simp only [byteLength_cons] at hk; omega
      have hsub : k + 1 - c.utf8Size = byteLength before := by
        simp only [byteLength_cons] at hk; omega
      rw [hk, List.cons_append, splitBytes?, if_pos hle, hsub, ih]
      rfl

/-- A split cuts the text into two parts, the first as long as the offset. -/
theorem append_of_splitBytes? {offset : Nat} {text before after : List Char}
    (h : splitBytes? offset text = some (before, after)) :
    text = before ++ after ∧ byteLength before = offset := by
  induction text generalizing offset before with
  | nil =>
      cases offset with
      | zero => simp_all [splitBytes?]
      | succ offset => simp [splitBytes?] at h
  | cons c rest ih =>
      cases offset with
      | zero => simp_all [splitBytes?]
      | succ offset =>
          rw [splitBytes?] at h
          split at h
          · next hle =>
            rw [Option.map_eq_some_iff] at h
            obtain ⟨⟨before', after'⟩, hsplit, heq⟩ := h
            obtain ⟨rfl, rfl⟩ := Prod.mk.inj heq
            obtain ⟨hrest, hlen⟩ := ih hsplit
            refine ⟨by rw [hrest]; rfl, ?_⟩
            rw [byteLength_cons, hlen]
            omega
          · cases h

example : splitBytes? 2 "aé".toList = none := by decide
example : splitBytes? 3 "aéb".toList = some ("aé".toList, "b".toList) := by decide
example : column 2 "aéb".toList = 2 := by decide
example : column 9 "aéb".toList = 3 := by decide

end TreeQuery.Text
