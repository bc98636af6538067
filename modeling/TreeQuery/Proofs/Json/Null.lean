import TreeQuery.Proofs.Json.Buffer

/-!
# The first null of a document

The parts of an array come in the order of their positions, and those of an object in the
order of their keys.  This orders all places of a document, except that it says nothing of
two places of which one is in the other (`Json.Before`).

The conversion goes through the parts in this order, and it fails at the first one with a
null in it (`Value.ofJsonAt_searches`).  By recursion the pointer of the failure leads to
the first null of the whole document.
-/

namespace TreeQuery

namespace Json

/-! ## The order of a document -/

/-- A null stands somewhere in the document. -/
inductive ContainsNull : Json → Prop where
  /-- The document is a null. -/
  | here : ContainsNull .null
  /-- A null stands in an item. -/
  | item {items : List Json} {item : Json} : item ∈ items → ContainsNull item →
      ContainsNull (.array items)
  /-- A null stands in a member. -/
  | member {members : List (String × Json)} {member : String × Json} : member ∈ members →
      ContainsNull member.2 → ContainsNull (.object members)

/-- Of two parts of a document, the first token leads to the earlier one: the one at the
smaller position, or the one with the smaller key. -/
def Ahead : Json → String → String → Prop
  | .array _, token, token' => ∃ i j, i < j ∧ token = indexToken i ∧ token' = indexToken j
  | .object _, token, token' => token < token'
  | _, _, _ => False

/-- Two pointers part in a document, and the first one goes on in the earlier part. -/
inductive Before : Json → Pointer → Pointer → Prop where
  /-- They part at once. -/
  | ahead {document : Json} {token token' : String} (below below' : Pointer) :
      document.Ahead token token' → Before document (token :: below) (token' :: below')
  /-- They go on in the same part. -/
  | within {document part : Json} {token : String} {below below' : Pointer} :
      document.parts.lookup token = some part → Before part below below' →
      Before document (token :: below) (token :: below')

/-! ## Parts -/

theorem mem_numbered {items : List Json} {position : Nat} {part : String × Json}
    (h : part ∈ numbered position items) :
    part.2 ∈ items ∧ ∃ j, position ≤ j ∧ part.1 = indexToken j := by
  induction items generalizing position with
  | nil => cases h
  | cons item rest ih =>
      obtain rfl | h := List.mem_cons.mp h
      · exact ⟨List.mem_cons_self .., position, Nat.le_refl _, rfl⟩
      · obtain ⟨hmem, j, hle, htoken⟩ := ih h
        exact ⟨List.mem_cons_of_mem _ hmem, j, Nat.le_of_succ_le hle, htoken⟩

theorem map_snd_numbered (position : Nat) (items : List Json) :
    (numbered position items).map Prod.snd = items := by
  induction items generalizing position with
  | nil => rfl
  | cons item rest ih => rw [numbered, List.map_cons, ih]

theorem containsNull_iff {document : Json} :
    document.ContainsNull ↔ document = .null ∨ ∃ part ∈ document.parts, part.2.ContainsNull := by
  constructor
  · intro h
    cases h with
    | here => exact .inl rfl
    | @item items item hmem hnull =>
        rw [← map_snd_numbered 0 items, List.mem_map] at hmem
        obtain ⟨part, hpart, rfl⟩ := hmem
        exact .inr ⟨part, hpart, hnull⟩
    | member hmem hnull => exact .inr ⟨_, hmem, hnull⟩
  · rintro (rfl | ⟨part, hpart, hnull⟩)
    · exact .here
    · cases document with
      | array items => exact .item (mem_numbered hpart).1 hnull
      | object members => exact .member hpart hnull
      | null => exact .here
      | bool b => cases hpart
      | integer n => cases hpart
      | float x => cases hpart
      | string s => cases hpart

theorem WellFormed.of_mem_parts {document : Json} (h : document.WellFormed)
    {part : String × Json} (hpart : part ∈ document.parts) : part.2.WellFormed := by
  cases h with
  | array hitems => exact hitems _ (mem_numbered hpart).1
  | object _ hmembers => exact hmembers part hpart
  | null => cases hpart
  | bool b => cases hpart
  | integer n => cases hpart
  | float hfinite => cases hpart
  | string s => cases hpart

theorem pairwise_numbered (position : Nat) (items : List Json) :
    (numbered position items).Pairwise fun part part' =>
      ∃ i j, i < j ∧ part.1 = indexToken i ∧ part'.1 = indexToken j := by
  induction items generalizing position with
  | nil => exact List.Pairwise.nil
  | cons item rest ih =>
      refine List.pairwise_cons.mpr ⟨fun part hpart => ?_, ih (position + 1)⟩
      obtain ⟨-, j, hle, htoken⟩ := mem_numbered hpart
      exact ⟨position, j, hle, rfl, htoken⟩

/-- The parts of a document come in its order. -/
theorem WellFormed.pairwise_ahead {document : Json} (h : document.WellFormed) :
    document.parts.Pairwise fun part part' => document.Ahead part.1 part'.1 := by
  cases h with
  | @array items _ => exact pairwise_numbered 0 items
  | object hsorted _ => exact List.pairwise_map.mp hsorted
  | null => exact List.Pairwise.nil
  | bool b => exact List.Pairwise.nil
  | integer n => exact List.Pairwise.nil
  | float hfinite => exact List.Pairwise.nil
  | string s => exact List.Pairwise.nil

theorem Ahead.ne {document : Json} {token token' : String} (h : document.Ahead token token') :
    token ≠ token' := by
  cases document with
  | array items =>
      obtain ⟨i, j, hlt, rfl, rfl⟩ := h
      exact fun heq => Nat.ne_of_lt hlt (indexToken_inj heq)
  | object members => exact ne_of_lt h
  | null => cases h
  | bool b => cases h
  | integer n => cases h
  | float x => cases h
  | string s => cases h

/-- A token leads to its own part. -/
theorem WellFormed.lookup_parts {document : Json} (h : document.WellFormed)
    {before after : List (String × Json)} {token : String} {part : Json}
    (hparts : document.parts = before ++ (token, part) :: after) :
    document.parts.lookup token = some part := by
  refine List.lookup_eq_some_iff.mpr ⟨before, after, hparts, fun other hother => ?_⟩
  have hahead := h.pairwise_ahead
  rw [hparts, List.pairwise_append] at hahead
  obtain ⟨-, -, hcross⟩ := hahead
  exact bne_iff_ne.mpr (hcross other hother _ (List.mem_cons_self ..)).ne.symm

/-! ## The first null -/

/-- A pointer leads to the first null of a document.  The parts before the one it goes into
have no null, and there it leads to the first one. -/
inductive FirstNull : Json → Pointer → Prop where
  /-- The document is a null. -/
  | here : FirstNull .null []
  /-- The first null is in the first part that has one. -/
  | part {document part : Json} {before after : List (String × Json)} {token : String}
      {below : Pointer} : document.parts = before ++ (token, part) :: after →
      (∀ other ∈ before, ¬other.2.ContainsNull) → FirstNull part below →
      FirstNull document (token :: below)

namespace FirstNull

variable {document : Json} {pointer : Pointer}

theorem containsNull (h : document.FirstNull pointer) : document.ContainsNull := by
  induction h with
  | here => exact .here
  | @part document part before after token below hparts _ _ ih =>
      exact containsNull_iff.mpr (.inr ⟨(token, part), by simp [hparts], ih⟩)

theorem at?_eq (h : document.FirstNull pointer) (hformed : document.WellFormed) :
    document.at? pointer = some .null := by
  induction h with
  | here => rfl
  | @part document part before after token below hparts _ _ ih =>
      have hmem : (token, part) ∈ document.parts := by simp [hparts]
      rw [at?, hformed.lookup_parts hparts, Option.bind_some, ih (hformed.of_mem_parts hmem)]

end FirstNull

/-- What a pointer leads to stands in the document. -/
theorem containsNull_of_at? {pointer : Pointer} {document : Json}
    (h : document.at? pointer = some .null) : document.ContainsNull := by
  induction pointer generalizing document with
  | nil =>
      obtain rfl := Option.some.inj h
      exact .here
  | cons token below ih =>
      obtain ⟨part, hpart, hbelow⟩ := Option.bind_eq_some_iff.mp h
      obtain ⟨before, after, hparts, -⟩ := List.lookup_eq_some_iff.mp hpart
      exact containsNull_iff.mpr (.inr ⟨(token, part), by simp [hparts], ih hbelow⟩)

/-- All other nulls come later. -/
theorem FirstNull.before {document : Json} {pointer other : Pointer}
    (h : document.FirstNull pointer) (hformed : document.WellFormed)
    (hother : document.at? other = some .null) :
    other = pointer ∨ document.Before pointer other := by
  induction h generalizing other with
  | here =>
      cases other with
      | nil => exact .inl rfl
      | cons token below => cases hother
  | @part document part before after token below hparts hbefore _ ih =>
      have hmem : (token, part) ∈ document.parts := by simp [hparts]
      cases other with
      | nil =>
          obtain rfl : document = .null := Option.some.inj hother
          cases hmem
      | cons token' below' =>
          obtain ⟨part', hpart', hbelow'⟩ := Option.bind_eq_some_iff.mp hother
          obtain ⟨_, _, hparts', -⟩ := List.lookup_eq_some_iff.mp hpart'
          have hmem' : (token', part') ∈ before ++ (token, part) :: after := by
            simp [← hparts, hparts']
          obtain hmem' | hmem' := List.mem_append.mp hmem'
          · exact absurd (containsNull_of_at? hbelow') (hbefore _ hmem')
          · obtain hsame | hmem' := List.mem_cons.mp hmem'
            · obtain ⟨rfl, rfl⟩ := Prod.mk.inj hsame
              obtain rfl | hlater := ih (hformed.of_mem_parts hmem) hbelow'
              · exact .inl rfl
              · exact .inr (.within hpart' hlater)
            · have hahead := hformed.pairwise_ahead
              rw [hparts, List.pairwise_append, List.pairwise_cons] at hahead
              obtain ⟨-, ⟨hafter, -⟩, -⟩ := hahead
              exact .inr (.ahead below below' (hafter _ hmem'))

end Json

namespace Value

/-! ## Searching for a null -/

/-- The items of an array are converted like the members of an object whose keys are the
positions. -/
theorem ofJsonItems_eq (pointer : Json.Pointer) (position : Nat) (items : List Json) :
    ofJsonItems pointer position items
      = (ofJsonMembers pointer (Json.numbered position items)).map (List.map Prod.snd) := by
  induction items generalizing position with
  | nil => rfl
  | cons item rest ih =>
      rw [ofJsonItems, Json.numbered, ofJsonMembers, ih, Json.indexToken]
      cases ofJsonAt (pointer ++ [String.ofList (Numeral.ofNat position)]) item with
      | error failure => rfl
      | ok first =>
          cases ofJsonMembers pointer (Json.numbered (position + 1) rest) with
          | error failure => rfl
          | ok others => rfl

/-- A document without null has a value, and another one fails with its first null. -/
def Searches (pointer : Json.Pointer) (document : Json) : Prop :=
  (∃ value, ofJsonAt pointer document = .ok value) ∧ ¬document.ContainsNull
    ∨ ∃ below, ofJsonAt pointer document = .error ⟨pointer ++ below⟩ ∧ document.FirstNull below

/-- Parts are searched one after the other. -/
theorem ofJsonMembers_searches {members : List (String × Json)}
    (h : ∀ member ∈ members, ∀ pointer, Searches pointer member.2) (pointer : Json.Pointer) :
    (∃ entries, ofJsonMembers pointer members = .ok entries)
        ∧ (∀ member ∈ members, ¬member.2.ContainsNull)
      ∨ ∃ before token part after below, members = before ++ (token, part) :: after
          ∧ (∀ other ∈ before, ¬other.2.ContainsNull) ∧ part.FirstNull below
          ∧ ofJsonMembers pointer members = .error ⟨pointer ++ token :: below⟩ := by
  induction members with
  | nil => exact .inl ⟨⟨[], rfl⟩, nofun⟩
  | cons member rest ih =>
      obtain ⟨key, item⟩ := member
      obtain ⟨hitem, hrest⟩ := List.forall_mem_cons.mp h
      rw [ofJsonMembers]
      obtain ⟨⟨value, hvalue⟩, hnone⟩ | ⟨below, hfailure, hfirst⟩ := hitem (pointer ++ [key])
      · rw [hvalue]
        obtain ⟨⟨entries, hentries⟩, hothers⟩ |
          ⟨before, token, part, after, below, rfl, hbefore, hfirst, hfailure⟩ := ih hrest
        · rw [hentries]
          exact .inl ⟨⟨_, rfl⟩, List.forall_mem_cons.mpr ⟨hnone, hothers⟩⟩
        · rw [hfailure]
          refine .inr ⟨(key, item) :: before, token, part, after, below, rfl, ?_, hfirst, rfl⟩
          exact List.forall_mem_cons.mpr ⟨hnone, hbefore⟩
      · rw [hfailure, List.append_assoc]
        exact .inr ⟨[], key, item, rest, below, rfl, nofun, hfirst, rfl⟩

/-- A container is searched when its parts are, and converted if all of them are. -/
theorem searches_of_parts {document : Json} {pointer : Json.Pointer}
    {build : List (String × Value) → Value} (hne : document ≠ .null)
    (hbuild : ofJsonAt pointer document = (ofJsonMembers pointer document.parts).map build)
    (h : ∀ part ∈ document.parts, ∀ pointer, Searches pointer part.2) :
    Searches pointer document := by
  rw [Searches, hbuild]
  obtain ⟨⟨entries, hentries⟩, hnone⟩ |
    ⟨before, token, part, after, below, hparts, hbefore, hfirst, hfailure⟩ :=
    ofJsonMembers_searches h pointer
  · refine .inl ⟨⟨build entries, by rw [hentries]; rfl⟩, fun hnull => ?_⟩
    obtain heq | ⟨part, hpart, hnull⟩ := Json.containsNull_iff.mp hnull
    · exact hne heq
    · exact hnone part hpart hnull
  · exact .inr ⟨token :: below, by rw [hfailure]; rfl, .part hparts hbefore hfirst⟩

theorem ofJsonAt_searches {document : Json} (hformed : document.WellFormed)
    (pointer : Json.Pointer) : Searches pointer document := by
  induction hformed generalizing pointer with
  | null => exact .inr ⟨[], by rw [List.append_nil]; rfl, .here⟩
  | bool b => exact .inl ⟨⟨_, rfl⟩, by rintro ⟨⟩⟩
  | integer n => exact .inl ⟨⟨_, rfl⟩, by rintro ⟨⟩⟩
  | float hfinite => exact .inl ⟨⟨_, rfl⟩, by rintro ⟨⟩⟩
  | string s => exact .inl ⟨⟨_, rfl⟩, by rintro ⟨⟩⟩
  | @array items _ ih =>
      refine @searches_of_parts (.array items) pointer (fun entries => .list (entries.map Prod.snd))
        (by simp) ?_ fun part hpart => ih _ (Json.mem_numbered hpart).1
      rw [ofJsonAt, ofJsonItems_eq, Json.parts]
      cases ofJsonMembers pointer (Json.numbered 0 items) <;> rfl
  | @object members _ _ ih =>
      exact @searches_of_parts (.object members) pointer
        (fun entries => .compound (Compound.ofList entries)) (by simp) rfl ih

/-! ## The failure of the conversion -/

/-- A document fails to have a value exactly when it has a null.  Then the text of the failure
is read as a pointer that leads to a null, and all other nulls come later.  A conversion
with a single buffer gives the same value, or fails with the same text. -/
theorem ofJson_fails_at_first_null {document : Json} (hformed : document.WellFormed) :
    ((∃ failure, ofJson document = .error failure) ↔ document.ContainsNull)
      ∧ (∀ failure, ofJson document = .error failure →
          Json.Pointer.ofText? failure.location.text = some failure.location
            ∧ document.at? failure.location = some .null
            ∧ ∀ pointer, document.at? pointer = some .null →
                pointer = failure.location ∨ document.Before failure.location pointer)
      ∧ (ofJsonBuffered document).run [] = spelled [] (ofJson document) := by
  refine ⟨?_, fun failure hfailure => ?_, run_ofJsonBuffered hformed []⟩
  · obtain ⟨⟨value, hvalue⟩, hnone⟩ | ⟨below, hfailure, hfirst⟩ := ofJsonAt_searches hformed []
    · refine iff_of_false ?_ hnone
      rintro ⟨failure, hfailure⟩
      cases hvalue.symm.trans hfailure
    · exact iff_of_true ⟨_, hfailure⟩ hfirst.containsNull
  · obtain ⟨⟨value, hvalue⟩, -⟩ | ⟨below, herror, hfirst⟩ := ofJsonAt_searches hformed []
    · cases hvalue.symm.trans hfailure
    · obtain rfl := Except.error.inj (herror.symm.trans hfailure)
      exact ⟨Json.Pointer.ofText?_text below, hfirst.at?_eq hformed,
        fun pointer hpointer => hfirst.before hformed hpointer⟩

/-- The key of the first null is empty, and it is in a member whose key needs both escapes.
The other null is in a member with a greater key. -/
theorem ofJson_fails_at_escaped_null :
    let document : Json := .object [("0", .array [.integer 1]),
      ("~1/", .array [.bool true, .object [("", .null)]]), ("~2", .null)]
    ofJson document = .error ⟨["~1/", "1", ""]⟩
      ∧ Json.Pointer.text ["~1/", "1", ""] = "/~01~1/1/"
      ∧ Json.Pointer.ofText? "/~01~1/1/" = some ["~1/", "1", ""]
      ∧ document.at? ["~1/", "1", ""] = some .null ∧ document.at? ["~2"] = some .null
      ∧ document.Before ["~1/", "1", ""] ["~2"] := by
  intro document
  have hformed : document.WellFormed := by
    have hsorted : ["0", "~1/", "~2"].Pairwise (· < ·) := by decide +kernel
    refine .object hsorted ?_
    refine List.forall_mem_cons.mpr ⟨.array (List.forall_mem_singleton.mpr (.integer 1)), ?_⟩
    refine List.forall_mem_cons.mpr ⟨.array ?_, List.forall_mem_singleton.mpr .null⟩
    refine List.forall_mem_cons.mpr ⟨.bool true, List.forall_mem_singleton.mpr ?_⟩
    exact .object (List.pairwise_singleton _ _) (List.forall_mem_singleton.mpr .null)
  have hfailure : ofJson document = .error ⟨["~1/", "1", ""]⟩ := by rfl
  have hother : document.at? ["~2"] = some .null := by rfl
  obtain ⟨-, hfirst, -⟩ := ofJson_fails_at_first_null hformed
  obtain ⟨hread, hnull, hlater⟩ := hfirst _ hfailure
  exact ⟨hfailure, rfl, hread, hnull, hother, (hlater _ hother).resolve_left (by decide)⟩

end Value

end TreeQuery
