import Mathlib.Data.List.Induction
import TreeQuery.Proofs.Value.Matching

/-!
# Compounds made of entries

A compound is made by inserting entries one after the other, and several of them may
have the same key.  `Merges` says what is left of them without the insertions: each
key stands where it came first, with the value that came last.  Only one compound
is left of given entries, and `Compound.ofList` makes it (`ofList_eq_iff`).

Entries with distinct keys are all left (`ofList_of_nodup`).
-/

namespace TreeQuery.Compound

/-! ## Compounds and their keys -/

/-- A new entry goes to the end. -/
theorem insert_of_notMem {compound : Compound} {key : String} (h : key ∉ keys compound)
    (value : Value) : insert compound key value = compound ++ [(key, value)] := by
  induction compound with
  | nil => rfl
  | cons entry rest ih =>
      obtain ⟨name, old⟩ := entry
      simp only [keys, List.map_cons, List.mem_cons, not_or] at h
      rw [insert, if_neg (Ne.symm h.1), ih h.2, List.cons_append]

theorem get?_of_notMem {compound : Compound} {key : String} (h : key ∉ keys compound) :
    get? compound key = none := by
  rw [← get?_isSome_iff_mem_keys] at h
  simpa using h

/-- A compound is known by its keys and their values. -/
theorem ext_of_keys {first second : Compound} (hnodup : (keys first).Nodup)
    (hkeys : keys first = keys second) (hget : ∀ key, get? first key = get? second key) :
    first = second := by
  induction first generalizing second with
  | nil => exact (List.map_eq_nil_iff.mp hkeys.symm).symm
  | cons entry rest ih =>
      cases second with
      | nil => simp [keys] at hkeys
      | cons entry' rest' =>
          obtain ⟨name, value⟩ := entry
          obtain ⟨name', value'⟩ := entry'
          obtain ⟨rfl, hrest⟩ := List.cons.inj hkeys
          obtain ⟨hnew, hnodup⟩ := List.nodup_cons.mp hnodup
          have hvalue : value = value' := by simpa [get?] using hget name
          have htail : rest = rest' := by
            refine ih hnodup hrest fun key => ?_
            by_cases hname : name = key
            · have hnew' : name ∉ keys rest' := by rwa [keys, ← hrest]
              rw [← hname, get?_of_notMem hnew, get?_of_notMem hnew']
            · simpa [get?, hname] using hget key
          rw [hvalue, htail]

/-! ## What is left of entries -/

/-- The compound is what is left of the entries, written one after the other. -/
structure Merges (entries : List (String × Value)) (compound : Compound) : Prop where
  /-- Each key stands once, where it came first. -/
  keys : Compound.keys compound = (entries.map Prod.fst).eraseDups
  /-- Each key has the value that came last. -/
  get? : ∀ key, Compound.get? compound key = Compound.get? entries.reverse key

theorem ofList_append (entries : List (String × Value)) (key : String) (value : Value) :
    ofList (entries ++ [(key, value)]) = insert (ofList entries) key value := by
  simp [ofList]

theorem nodup_keys_ofList (entries : List (String × Value)) : (keys (ofList entries)).Nodup := by
  induction entries using List.reverseRecOn with
  | nil => exact List.nodup_nil
  | append_singleton entries entry ih =>
      rw [ofList_append]
      exact nodup_keys_insert ih ..

theorem merges_ofList (entries : List (String × Value)) : Merges entries (ofList entries) := by
  induction entries using List.reverseRecOn with
  | nil => exact ⟨by simp [ofList, Compound.keys], fun _ => rfl⟩
  | append_singleton entries entry ih =>
      obtain ⟨key, value⟩ := entry
      rw [ofList_append]
      constructor
      · rw [keys_insert, ih.keys, List.map_append, List.eraseDups_append]
        by_cases hkey : key ∈ entries.map Prod.fst <;>
          simp [List.removeAll, List.mem_eraseDups, List.eraseDups_cons, hkey]
      · intro other
        rw [get?_insert, ih.get?, List.reverse_append, List.reverse_singleton,
          List.singleton_append, Compound.get?]

/-- Inserting entries leaves what is left of them, and nothing else is. -/
theorem ofList_eq_iff {entries : List (String × Value)} {compound : Compound} :
    ofList entries = compound ↔ Merges entries compound := by
  constructor
  · rintro rfl
    exact merges_ofList entries
  · intro h
    have hall := merges_ofList entries
    exact ext_of_keys (nodup_keys_ofList entries) (hall.keys.trans h.keys.symm)
      fun key => (hall.get? key).trans (h.get? key).symm

/-- No value is left that the entries do not have. -/
theorem forall_mem_ofList (property : Value → Prop) {entries : List (String × Value)}
    (h : ∀ entry ∈ entries, property entry.2) : ∀ entry ∈ ofList entries, property entry.2 := by
  induction entries using List.reverseRecOn with
  | nil => exact nofun
  | append_singleton entries last ih =>
      obtain ⟨hentries, hlast⟩ := List.forall_mem_append.mp h
      intro entry hentry
      rw [ofList_append] at hentry
      obtain hvalue | hmem := Value.mem_insert hentry
      · rw [hvalue]
        exact hlast last (List.mem_singleton_self last)
      · exact ih hentries entry hmem

/-- Nothing is lost of entries with distinct keys. -/
theorem ofList_of_nodup {entries : Compound} (h : (keys entries).Nodup) :
    ofList entries = entries := by
  induction entries using List.reverseRecOn with
  | nil => rfl
  | append_singleton entries entry ih =>
      obtain ⟨key, value⟩ := entry
      rw [keys, List.map_append, List.nodup_append] at h
      have hnew : key ∉ keys entries := fun hkey => h.2.2 key hkey key (by simp) rfl
      rw [ofList_append, ih h.1, insert_of_notMem hnew]

end TreeQuery.Compound
