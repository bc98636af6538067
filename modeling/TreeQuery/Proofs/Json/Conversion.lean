import Mathlib.Data.List.Perm.Basic
import Mathlib.Data.String.Basic
import TreeQuery.Json.Conversion
import TreeQuery.Proofs.Token
import TreeQuery.Proofs.Value.Alike
import TreeQuery.Proofs.Value.Merging

/-!
# From values to documents and back

A value whose floats are finite comes back from its document, as a tree that is the same:
only the order of the keys is lost.  A document that a value can stand for comes back from
its value without any change.  Such a document is *representable*: it holds no null, and
its integers have 64 bits.  Any other float of a value becomes a null in the document, and
that is the failure of the way back (`Value.json_round_trip`).

An object is *sorted* when its keys increase.  The members that are made of a compound are
sorted, and they are the documents of its entries in another order.

The way back names the place of a failure, so it is told the place it is at.  What it makes
of the parts of an array or an object is said for all places at once.
-/

namespace TreeQuery

namespace Json

/-! ## Sorted members -/

/-- The keys increase, so none stands twice. -/
def Sorted (members : List (String × Json)) : Prop :=
  (members.map Prod.fst).Pairwise (· < ·)

variable {members : List (String × Json)}

theorem Sorted.nodup (h : Sorted members) : (members.map Prod.fst).Nodup :=
  h.imp fun hlt => ne_of_lt hlt

theorem mem_keys_insertMember {key name : String} {value : Json}
    (h : name ∈ (insertMember key value members).map Prod.fst) :
    name = key ∨ name ∈ members.map Prod.fst := by
  induction members with
  | nil => simpa [insertMember] using h
  | cons member rest ih =>
      obtain ⟨first, old⟩ := member
      rw [insertMember] at h
      split at h
      · simpa using h
      · split at h
        · simp only [List.map_cons, List.mem_cons] at h ⊢
          tauto
        · simp only [List.map_cons, List.mem_cons] at h ih ⊢
          tauto

theorem Sorted.insertMember (h : Sorted members) (key : String) (value : Json) :
    Sorted (insertMember key value members) := by
  induction members with
  | nil => exact List.pairwise_singleton _ _
  | cons member rest ih =>
      obtain ⟨first, old⟩ := member
      obtain ⟨hfirst, hrest⟩ := List.pairwise_cons.mp h
      rw [Json.insertMember]
      split
      · next hlt =>
        refine List.pairwise_cons.mpr ⟨List.forall_mem_cons.mpr ⟨hlt, fun name hname => ?_⟩, h⟩
        exact lt_trans hlt (hfirst name hname)
      · next hnot =>
        split
        · next heq =>
          subst heq
          exact h
        · next hne =>
          have hlt : first < key := lt_of_le_of_ne (not_lt.mp hnot) (Ne.symm hne)
          refine List.pairwise_cons.mpr ⟨fun name hname => ?_, ih hrest⟩
          obtain rfl | hmem := mem_keys_insertMember hname
          · exact hlt
          · exact hfirst name hmem

/-- A new member is put somewhere between the others. -/
theorem insertMember_perm {key : String} (h : key ∉ members.map Prod.fst) (value : Json) :
    (insertMember key value members).Perm ((key, value) :: members) := by
  induction members with
  | nil => exact .refl _
  | cons member rest ih =>
      obtain ⟨first, old⟩ := member
      simp only [List.map_cons, List.mem_cons, not_or] at h
      rw [insertMember, if_neg h.1]
      split
      · exact .refl _
      · exact ((ih h.2).cons _).trans (.swap ..)

/-- A member with a smaller key than all others is put first. -/
theorem insertMember_of_lt {key : String} (h : ∀ name ∈ members.map Prod.fst, key < name)
    (value : Json) : insertMember key value members = (key, value) :: members := by
  cases members with
  | nil => rfl
  | cons member rest =>
      obtain ⟨first, old⟩ := member
      rw [insertMember, if_pos (h first (List.mem_cons_self ..))]

/-! ## Documents -/

/-- The members of all objects are sorted, and all floats are finite. -/
inductive WellFormed : Json → Prop where
  | null : WellFormed .null
  | bool (b : Bool) : WellFormed (.bool b)
  | integer (n : Int) : WellFormed (.integer n)
  | float {x : Binary64} : x.isFinite = true → WellFormed (.float x)
  | string (s : String) : WellFormed (.string s)
  | array {items : List Json} : (∀ item ∈ items, WellFormed item) → WellFormed (.array items)
  | object {members : List (String × Json)} : Sorted members →
      (∀ member ∈ members, WellFormed member.2) → WellFormed (.object members)

/-- No null stands in the document, and its integers have 64 bits. -/
inductive Representable : Json → Prop where
  | bool (b : Bool) : Representable (.bool b)
  | integer {n : Int} : Numeral.inInt64 n = true → Representable (.integer n)
  | float (x : Binary64) : Representable (.float x)
  | string (s : String) : Representable (.string s)
  | array {items : List Json} : (∀ item ∈ items, Representable item) →
      Representable (.array items)
  | object {members : List (String × Json)} : (∀ member ∈ members, Representable member.2) →
      Representable (.object members)

end Json

namespace Value

/-! ## The documents of the parts -/

/-- The member that an entry becomes. -/
def toMember (entry : String × Value) : String × Json := (entry.1, entry.2.toJson)

theorem toJsonItems_eq_map (items : List Value) : toJsonItems items = items.map toJson := by
  induction items with
  | nil => rfl
  | cons item rest ih => rw [toJsonItems, ih, List.map_cons]

theorem map_fst_toMember (entries : Compound) :
    (entries.map toMember).map Prod.fst = Compound.keys entries := by
  simp [toMember, Compound.keys, Function.comp_def]

theorem sorted_toJsonMembers (entries : Compound) : Json.Sorted (toJsonMembers entries) := by
  induction entries with
  | nil => exact List.Pairwise.nil
  | cons entry rest ih => exact ih.insertMember _ _

/-- The members are the documents of the entries in another order. -/
theorem toJsonMembers_perm {entries : Compound} (hkeys : (Compound.keys entries).Nodup) :
    (toJsonMembers entries).Perm (entries.map toMember) := by
  induction entries with
  | nil => exact .refl _
  | cons entry rest ih =>
      obtain ⟨key, value⟩ := entry
      obtain ⟨hnew, hrest⟩ := List.nodup_cons.mp hkeys
      have hperm := ih hrest
      have hnotMem : key ∉ (toJsonMembers rest).map Prod.fst := by
        rw [(hperm.map Prod.fst).mem_iff, map_fst_toMember]
        exact hnew
      exact (Json.insertMember_perm hnotMem _).trans (hperm.cons _)

/-- The members of a compound whose keys increase are in the order of its entries. -/
theorem toJsonMembers_of_sorted {entries : Compound}
    (hkeys : (Compound.keys entries).Pairwise (· < ·)) :
    toJsonMembers entries = entries.map toMember := by
  induction entries with
  | nil => rfl
  | cons entry rest ih =>
      obtain ⟨key, value⟩ := entry
      obtain ⟨hfirst, hrest⟩ := List.pairwise_cons.mp hkeys
      rw [toJsonMembers, ih hrest]
      refine Json.insertMember_of_lt (fun name hname => ?_) _
      rw [map_fst_toMember] at hname
      exact hfirst name hname

/-! ## The values of the parts -/

/-- An array has a value when all its items have.  The items are the documents of some
sources, and each value is related to its source. -/
theorem ofJsonItems_ok {α : Type} {document : α → Json} {r : α → Value → Prop} {items : List α}
    (h : ∀ item ∈ items, ∀ pointer,
      ∃ value, ofJsonAt pointer (document item) = .ok value ∧ r item value)
    (pointer : Json.Pointer) (position : Nat) :
    ∃ values, ofJsonItems pointer position (items.map document) = .ok values
      ∧ List.Forall₂ r items values := by
  induction items generalizing position with
  | nil => exact ⟨[], rfl, .nil⟩
  | cons item rest ih =>
      obtain ⟨hitem, hrest⟩ := List.forall_mem_cons.mp h
      obtain ⟨value, hvalue, hr⟩ := hitem (pointer ++ [String.ofList (Numeral.ofNat position)])
      obtain ⟨values, hvalues, hall⟩ := ih hrest (position + 1)
      refine ⟨value :: values, ?_, .cons hr hall⟩
      rw [List.map_cons, ofJsonItems, hvalue, hvalues]
      rfl

theorem ofJsonItems_error {items : List Json} {item : Json} (hmem : item ∈ items)
    (h : ∀ pointer, ∃ failure, ofJsonAt pointer item = .error failure)
    (pointer : Json.Pointer) (position : Nat) :
    ∃ failure, ofJsonItems pointer position items = .error failure := by
  induction items generalizing position with
  | nil => cases hmem
  | cons first rest ih =>
      rw [ofJsonItems]
      cases hfirst : ofJsonAt (pointer ++ [String.ofList (Numeral.ofNat position)]) first with
      | error failure => exact ⟨failure, rfl⟩
      | ok value =>
          obtain rfl | hmem := List.mem_cons.mp hmem
          · obtain ⟨failure, hfailure⟩ := h (pointer ++ [String.ofList (Numeral.ofNat position)])
            cases hfirst.symm.trans hfailure
          · obtain ⟨failure, hfailure⟩ := ih hmem (position + 1)
            exact ⟨failure, by rw [hfailure]; rfl⟩

theorem ofJsonMembers_ok {r : String × Json → Value → Prop} {members : List (String × Json)}
    (h : ∀ member ∈ members, ∀ pointer,
      ∃ value, ofJsonAt pointer member.2 = .ok value ∧ r member value)
    (pointer : Json.Pointer) :
    ∃ entries, ofJsonMembers pointer members = .ok entries
      ∧ List.Forall₂ (fun member entry => member.1 = entry.1 ∧ r member entry.2)
        members entries := by
  induction members with
  | nil => exact ⟨[], rfl, .nil⟩
  | cons member rest ih =>
      obtain ⟨key, item⟩ := member
      obtain ⟨hmember, hrest⟩ := List.forall_mem_cons.mp h
      obtain ⟨value, hvalue, hr⟩ := hmember (pointer ++ [key])
      obtain ⟨entries, hentries, hall⟩ := ih hrest
      refine ⟨(key, value) :: entries, ?_, .cons ⟨rfl, hr⟩ hall⟩
      rw [ofJsonMembers, hvalue, hentries]
      rfl

theorem ofJsonMembers_error {members : List (String × Json)} {member : String × Json}
    (hmem : member ∈ members)
    (h : ∀ pointer, ∃ failure, ofJsonAt pointer member.2 = .error failure)
    (pointer : Json.Pointer) :
    ∃ failure, ofJsonMembers pointer members = .error failure := by
  induction members with
  | nil => cases hmem
  | cons first rest ih =>
      obtain ⟨key, item⟩ := first
      rw [ofJsonMembers]
      cases hfirst : ofJsonAt (pointer ++ [key]) item with
      | error failure => exact ⟨failure, rfl⟩
      | ok value =>
          obtain rfl | hmem := List.mem_cons.mp hmem
          · obtain ⟨failure, hfailure⟩ := h (pointer ++ [key])
            cases hfirst.symm.trans hfailure
          · obtain ⟨failure, hfailure⟩ := ih hmem
            exact ⟨failure, by rw [hfailure]; rfl⟩

/-- An object has a value when all its members have.  Its keys are those of the object in
the same order. -/
theorem ofJsonAt_object {r : String × Json → Value → Prop} {members : List (String × Json)}
    (hsorted : Json.Sorted members)
    (h : ∀ member ∈ members, ∀ pointer,
      ∃ value, ofJsonAt pointer member.2 = .ok value ∧ r member value)
    (pointer : Json.Pointer) :
    ∃ entries, ofJsonAt pointer (.object members) = .ok (.compound entries)
      ∧ Compound.keys entries = members.map Prod.fst
      ∧ List.Forall₂ (fun member entry => member.1 = entry.1 ∧ r member entry.2)
        members entries := by
  obtain ⟨entries, hentries, hall⟩ := ofJsonMembers_ok h pointer
  have hkeys : Compound.keys entries = members.map Prod.fst :=
    (map_congr_of_forall₂ hall fun _ _ hentry => hentry.1).symm
  refine ⟨entries, ?_, hkeys, hall⟩
  rw [ofJsonAt, hentries]
  have hnodup : (Compound.keys entries).Nodup := hkeys ▸ hsorted.nodup
  exact congrArg (fun entries => Except.ok (Value.compound entries))
    (Compound.ofList_of_nodup hnodup)

/-! ## Back from a document -/

theorem isFinite_compound {entries : Compound} :
    (compound entries).isFinite = true ↔ ∀ entry ∈ entries, entry.2.isFinite = true :=
  allScalarsEntries_iff

theorem isFinite_list {items : List Value} :
    (list items).isFinite = true ↔ ∀ item ∈ items, item.isFinite = true :=
  allScalarsItems_iff

theorem wellFormed_toJson {value : Value} (h : value.Keyed) : value.toJson.WellFormed := by
  induction h with
  | @compound entries hkeys _ ih =>
      refine .object (sorted_toJsonMembers entries) fun member hmember => ?_
      rw [(toJsonMembers_perm hkeys).mem_iff] at hmember
      obtain ⟨entry, hentry, rfl⟩ := List.mem_map.mp hmember
      exact ih entry hentry
  | @list items _ ih =>
      rw [toJson, toJsonItems_eq_map]
      exact .array (List.forall_mem_map.mpr ih)
  | @scalar leaf =>
      cases leaf with
      | bool b => exact .bool b
      | int n => exact .integer n.toInt
      | float x =>
          rw [toJson]
          split
          · next hfinite => exact .float hfinite
          · exact .null
      | string s => exact .string s

/-- No null stands in the document of a value with finite floats. -/
theorem representable_toJson {value : Value} (hkeyed : value.Keyed) (h : value.isFinite = true) :
    value.toJson.Representable := by
  induction hkeyed with
  | @compound entries hkeys _ ih =>
      refine .object fun member hmember => ?_
      rw [(toJsonMembers_perm hkeys).mem_iff] at hmember
      obtain ⟨entry, hentry, rfl⟩ := List.mem_map.mp hmember
      exact ih entry hentry (isFinite_compound.mp h entry hentry)
  | @list items _ ih =>
      rw [toJson, toJsonItems_eq_map]
      exact .array (List.forall_mem_map.mpr fun item hitem =>
        ih item hitem (isFinite_list.mp h item hitem))
  | @scalar leaf =>
      cases leaf with
      | bool b => exact .bool b
      | int n => exact .integer (Numeral.inInt64_toInt n)
      | float x =>
          have hfinite : x.isFinite = true := h
          rw [toJson, if_pos hfinite]
          exact .float x
      | string s => exact .string s

/-- A leaf with a finite float, or with none, comes back from its document. -/
theorem ofJsonAt_toJson_scalar {leaf : Scalar} (h : (scalar leaf).isFinite = true)
    (pointer : Json.Pointer) :
    ofJsonAt pointer (scalar leaf).toJson = .ok (scalar leaf) := by
  cases leaf with
  | bool b => rfl
  | int n => rw [toJson, ofJsonAt, if_pos (Numeral.inInt64_toInt n), Int64.ofInt_toInt]
  | float x =>
      have hfinite : x.isFinite = true := h
      rw [toJson, if_pos hfinite, ofJsonAt]
  | string s => rfl

/-- A value with finite floats comes back from its document. -/
theorem ofJsonAt_toJson_of_isFinite {value : Value} (hkeyed : value.Keyed)
    (h : value.isFinite = true) (pointer : Json.Pointer) :
    ∃ back, ofJsonAt pointer value.toJson = .ok back ∧ value.Alike back := by
  induction hkeyed generalizing pointer with
  | @compound entries hkeys _ ih =>
      have hperm := toJsonMembers_perm hkeys
      have hmembers : ∀ member ∈ toJsonMembers entries, ∀ pointer, ∃ back,
          ofJsonAt pointer member.2 = .ok back
            ∧ ∃ value, (member.1, value) ∈ entries ∧ value.Alike back := by
        intro member hmember pointer
        obtain ⟨⟨key, value⟩, hentry, rfl⟩ := List.mem_map.mp (hperm.mem_iff.mp hmember)
        obtain ⟨back, hback, halike⟩ := ih _ hentry (isFinite_compound.mp h _ hentry) pointer
        exact ⟨back, hback, value, hentry, halike⟩
      obtain ⟨backs, hbacks, hkeys', hall⟩ :=
        ofJsonAt_object (sorted_toJsonMembers entries) hmembers pointer
      have hsameKeys : (Compound.keys entries).Perm (Compound.keys backs) := by
        rw [hkeys', ← map_fst_toMember]
        exact (hperm.map Prod.fst).symm
      refine ⟨compound backs, hbacks, alike_compound.mpr ⟨hkeys, hsameKeys.nodup_iff.mp hkeys,
        fun name => optionRel_iff.mpr ⟨isSome_get?_of_perm hsameKeys name,
          fun value back hvalue hback => ?_⟩⟩⟩
      obtain ⟨member, -, hname, value', hentry, halike⟩ :=
        exists_of_mem_right hall (mem_of_get? hback)
      obtain rfl : member.1 = name := hname
      obtain rfl := Option.some.inj (hvalue.symm.trans (get?_of_mem hkeys hentry))
      exact halike
  | @list items _ ih =>
      obtain ⟨backs, hbacks, hall⟩ := ofJsonItems_ok
        (fun item hitem => ih item hitem (isFinite_list.mp h item hitem)) pointer 0
      refine ⟨list backs, ?_, alike_list.mpr hall⟩
      rw [toJson, toJsonItems_eq_map, ofJsonAt, hbacks]
      rfl
  | @scalar leaf =>
      have hself := alike_self .scalar (Keyed.scalar.isNaNFree h)
      exact ⟨scalar leaf, ofJsonAt_toJson_scalar h pointer, hself⟩

/-- A float that is not finite is a null in the document, which has no value then. -/
theorem ofJsonAt_toJson_of_not_isFinite {value : Value} (hkeyed : value.Keyed)
    (h : value.isFinite = false) (pointer : Json.Pointer) :
    ∃ failure, ofJsonAt pointer value.toJson = .error failure := by
  induction hkeyed generalizing pointer with
  | @compound entries hkeys _ ih =>
      have hnot := mt isFinite_compound.mpr (Bool.not_eq_true _ ▸ h)
      push Not at hnot
      obtain ⟨entry, hentry, hinfinite⟩ := hnot
      have hmember : toMember entry ∈ toJsonMembers entries :=
        (toJsonMembers_perm hkeys).mem_iff.mpr (List.mem_map_of_mem hentry)
      obtain ⟨failure, hfailure⟩ := ofJsonMembers_error hmember
        (ih entry hentry (Bool.eq_false_iff.mpr hinfinite)) pointer
      exact ⟨failure, by rw [toJson, ofJsonAt, hfailure]; rfl⟩
  | @list items _ ih =>
      have hnot := mt isFinite_list.mpr (Bool.not_eq_true _ ▸ h)
      push Not at hnot
      obtain ⟨item, hitem, hinfinite⟩ := hnot
      obtain ⟨failure, hfailure⟩ := ofJsonItems_error (List.mem_map_of_mem hitem)
        (ih item hitem (Bool.eq_false_iff.mpr hinfinite)) pointer 0
      exact ⟨failure, by rw [toJson, toJsonItems_eq_map, ofJsonAt, hfailure]; rfl⟩
  | @scalar leaf =>
      cases leaf with
      | float x =>
          have hinfinite : x.isFinite = false := h
          refine ⟨⟨pointer⟩, ?_⟩
          rw [toJson, hinfinite, if_neg Bool.false_ne_true, ofJsonAt]
      | bool b => cases h
      | int n => cases h
      | string s => cases h

/-! ## Back from a value -/

/-- A document that a value can stand for comes back from it. -/
theorem toJson_ofJsonAt {document : Json} (hformed : document.WellFormed)
    (h : document.Representable) (pointer : Json.Pointer) :
    ∃ value, ofJsonAt pointer document = .ok value ∧ value.toJson = document := by
  induction hformed generalizing pointer with
  | null => cases h
  | bool b => exact ⟨.scalar (.bool b), rfl, rfl⟩
  | integer n =>
      cases h with
      | integer hrange =>
          refine ⟨.scalar (.int (Int64.ofInt n)), ?_, ?_⟩
          · rw [ofJsonAt, if_pos hrange]
          · rw [toJson, Numeral.toInt_ofInt hrange]
  | @float x hfinite =>
      refine ⟨.scalar (.float x), rfl, ?_⟩
      rw [toJson, if_pos hfinite]
  | string s => exact ⟨.scalar (.string s), rfl, rfl⟩
  | @array items _ ih =>
      cases h with
      | array hitems =>
          obtain ⟨values, hvalues, hall⟩ :=
            ofJsonItems_ok (fun item hitem => ih item hitem (hitems item hitem)) pointer 0
          rw [List.map_id'] at hvalues
          refine ⟨.list values, by rw [ofJsonAt, hvalues]; rfl, ?_⟩
          have hback : items.map id = values.map toJson :=
            map_congr_of_forall₂ hall fun item value hvalue => hvalue.symm
          rw [toJson, toJsonItems_eq_map, ← hback, List.map_id]
  | @object members hsorted _ ih =>
      cases h with
      | object hmembers =>
          obtain ⟨entries, hentries, hkeys, hall⟩ := ofJsonAt_object hsorted
            (fun member hmember => ih member hmember (hmembers member hmember)) pointer
          have hback : members.map id = entries.map toMember :=
            map_congr_of_forall₂ hall fun member entry hentry =>
              Prod.ext hentry.1 hentry.2.symm
          refine ⟨.compound entries, hentries, ?_⟩
          rw [toJson, toJsonMembers_of_sorted (hkeys ▸ hsorted), ← hback, List.map_id]

/-! ## Both round trips -/

/-- A value with finite floats comes back from its document as the same tree.  With any
other float it fails with a null.  A document without null, whose integers have 64 bits,
comes back from its value without any change. -/
theorem json_round_trip {value : Value} (hkeyed : value.Keyed) {document : Json}
    (hformed : document.WellFormed) :
    (value.isFinite = true → ∃ back, ofJson value.toJson = .ok back ∧ back.Same value)
      ∧ (value.isFinite = false → ∃ failure, ofJson value.toJson = .error failure)
      ∧ (document.Representable →
        ∃ value, ofJson document = .ok value ∧ value.toJson = document) := by
  refine ⟨fun hfinite => ?_, fun hinfinite => ?_, fun hrepresentable => ?_⟩
  · obtain ⟨back, hback, halike⟩ := ofJsonAt_toJson_of_isFinite hkeyed hfinite []
    exact ⟨back, hback, halike.symm.same⟩
  · exact ofJsonAt_toJson_of_not_isFinite hkeyed hinfinite []
  · exact toJson_ofJsonAt hformed hrepresentable []

/-- The keys of the value come back in another order, and those of the document do not. -/
theorem json_round_trip_reordered :
    let value : Value := .compound [("b", .scalar (.float .zero)), ("a", .scalar (.int 1))]
    let back : Value := .compound [("a", .scalar (.int 1)), ("b", .scalar (.float .zero))]
    let document : Json := .object [("a", .integer 1), ("b", .float .zero)]
    back.Same value ∧ ofJson value.toJson = .ok back ∧ back.toJson = document := by
  intro value back document
  have hkeyed : value.Keyed := by
    refine .compound (by simp [Compound.keys]) ?_
    simp [Value.Keyed.scalar]
  have hread : ofJson document = .ok back := by rfl
  have hwritten : value.toJson = document := by cbv
  have hrepresentable : document.Representable := by
    refine .object (List.forall_mem_cons.mpr ⟨.integer (by decide +kernel), ?_⟩)
    exact List.forall_mem_singleton.mpr (.float _)
  have hformed : document.WellFormed := hwritten ▸ wellFormed_toJson hkeyed
  obtain ⟨hfinite, -, hexact⟩ := json_round_trip hkeyed hformed
  obtain ⟨_, hback, hsame⟩ := hfinite rfl
  rw [hwritten, hread] at hback
  obtain rfl := Except.ok.inj hback
  obtain ⟨_, hvalue, hdocument⟩ := hexact hrepresentable
  obtain rfl := Except.ok.inj (hread.symm.trans hvalue)
  exact ⟨hsame, hwritten ▸ hread, hdocument⟩

end Value

end TreeQuery
