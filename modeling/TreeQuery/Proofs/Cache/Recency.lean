import Mathlib
import TreeQuery.Proofs.Cache.Calls

/-!
# A cache forgets what was used the longest ago

While time advances from call to call, the entries of a cache stand in the order of their
last uses (`sorted_run`), for an entry that is stored or found goes to the end.  So the
entries that make room are the first ones (`roomy_of_sorted`), and sorting them by age
changes nothing.

The cache never grows beyond its bound, except to one entry where the bound is zero.
Entries make room only when a path is stored in a full cache.  A path that is found is
the object that was stored last, and it has been there since (`cache_recency`).
-/

namespace TreeQuery.PathCache

/-! ## Making room -/

section

variable {cache after : PathCache} {event : CacheEvent} {used : Option SharedPath}

/-- The entries stand in the order of their last uses. -/
def Sorted (cache : PathCache) : Prop :=
  cache.entries.Pairwise fun older newer => older.2.accessed < newer.2.accessed

/-- The number of entries that make room for another one. -/
def excess (config : CacheConfig) (count : Nat) : Nat :=
  if config.maxEntries ≤ count then min count (max 1 (config.maxEntries / 5)) else 0

/-- Entries go with their texts, and the others stay. -/
theorem filter_texts {gone kept : List (String × CacheEntry)}
    (h : ((gone ++ kept).map Prod.fst).Nodup) :
    (gone ++ kept).filter (fun (key, _) => key ∉ gone.map Prod.fst) = kept := by
  rw [List.map_append, List.nodup_append] at h
  obtain ⟨-, -, hapart⟩ := h
  have hgone : gone.filter (fun (key, _) => key ∉ gone.map Prod.fst) = [] := by
    rw [List.filter_eq_nil_iff]
    intro item hitem
    simpa using ⟨item.2, hitem⟩
  have hkept : kept.filter (fun (key, _) => key ∉ gone.map Prod.fst) = kept := by
    rw [List.filter_eq_self]
    intro item hitem
    have hnot : item.1 ∉ gone.map Prod.fst := fun hmem =>
      hapart _ hmem _ (List.mem_map_of_mem hitem) rfl
    simpa using hnot
  rw [List.filter_append, hgone, hkept, List.nil_append]

/-- In a sorted cache the first entries make room. -/
theorem roomy_of_sorted (hnodup : cache.texts.Nodup) (hsorted : cache.Sorted) :
    ∃ gone kept, cache.entries = gone ++ kept ∧ cache.roomy.entries = kept
      ∧ gone.length = excess cache.config cache.entries.length
      ∧ cache.roomy.evictions = cache.evictions + gone.length := by
  rw [roomy, excess]
  split
  · next hfull =>
    let size := evictionSize cache.config
    have hsplit := List.take_append_drop size cache.entries
    have hsort : cache.entries.mergeSort (fun (_, a) (_, b) => a.accessed ≤ b.accessed)
        = cache.entries := by
      refine List.mergeSort_of_pairwise (hsorted.imp fun hlt => ?_)
      simpa using Nat.le_of_lt hlt
    have hvictims : cache.victims = (cache.entries.take size).map Prod.fst := by
      simp [victims, hsort, size]
    have hfilter : cache.evict.entries = cache.entries.drop size := by
      have hkeys : ((cache.entries.take size ++ cache.entries.drop size).map Prod.fst).Nodup := by
        rwa [hsplit]
      have hkept := filter_texts hkeys
      rw [hsplit, ← hvictims] at hkept
      exact hkept
    refine ⟨cache.entries.take size, cache.entries.drop size, hsplit.symm, hfilter, ?_, ?_⟩
    · simp [size, evictionSize, Nat.min_comm]
    · simp [evict, hvictims]
  · exact ⟨[], cache.entries, rfl, rfl, rfl, rfl⟩

/-- An entry that is kept goes to the end. -/
theorem sorted_keep {text : String} {entry : CacheEntry} (h : cache.Sorted)
    (hnewer : ∀ item ∈ cache.entries, item.2.accessed < entry.accessed) :
    (cache.keep text entry).Sorted := by
  refine List.pairwise_append.mpr ⟨List.Pairwise.filter _ h, List.pairwise_singleton _ _, ?_⟩
  intro item hitem other hother
  rw [List.mem_singleton.mp hother]
  exact hnewer item (List.mem_of_mem_filter hitem)

theorem Served.sorted {stored used : Option SharedPath} (h : Served cache event after stored used)
    (hsorted : cache.Sorted) (hnewer : ∀ item ∈ cache.entries, item.2.accessed < event.now) :
    after.Sorted := by
  cases h with
  | cleared => exact List.Pairwise.nil
  | lost hloses => exact hsorted.sublist hloses.entries
  | hit => exact sorted_keep hsorted hnewer
  | stored _ hloses =>
      have hsublist := (roomy_sublist _).trans hloses.entries
      exact sorted_keep (hsorted.sublist hsublist) fun item hitem =>
        hnewer item (hsublist.subset hitem)
  | off _ hloses => exact hsorted.sublist hloses.entries

/-! ## The bound -/

theorem length_keep_le (cache : PathCache) (text : String) (entry : CacheEntry) :
    (cache.keep text entry).entries.length ≤ cache.entries.length + 1 := by
  simp [keep, drop, List.length_filter_le]

theorem length_keep_of_mem {text : String} {old : CacheEntry} (h : (text, old) ∈ cache.entries)
    (entry : CacheEntry) : (cache.keep text entry).entries.length ≤ cache.entries.length := by
  have hlt : (cache.drop text).entries.length < cache.entries.length := by
    rw [drop, List.length_filter_lt_length_iff_exists]
    exact ⟨(text, old), h, by simp⟩
  simpa [keep] using hlt

/-- A cache within its bound has room for one more entry after others have made room. -/
theorem length_roomy_lt (hnodup : cache.texts.Nodup) (hsorted : cache.Sorted)
    (h : cache.entries.length ≤ max cache.config.maxEntries 1) :
    cache.roomy.entries.length < max cache.config.maxEntries 1 := by
  obtain ⟨gone, kept, hsplit, hkept, hgone, -⟩ := roomy_of_sorted hnodup hsorted
  have hlength : cache.entries.length = gone.length + kept.length := by
    rw [hsplit, List.length_append]
  rw [hkept]
  grind [excess]

theorem Served.length_le {stored used : Option SharedPath}
    (h : Served cache event after stored used) (hnodup : cache.texts.Nodup)
    (hsorted : cache.Sorted) (hbound : cache.entries.length ≤ max cache.config.maxEntries 1) :
    after.entries.length ≤ max cache.config.maxEntries 1 := by
  cases h with
  | cleared => simp [clear]
  | lost hloses => exact hloses.entries.length_le.trans hbound
  | hit hfind => exact (length_keep_of_mem (mem_of_find? hfind) _).trans hbound
  | @stored shared _ hloses =>
      have hroomy := length_roomy_lt (hnodup.sublist hloses.texts_sublist)
        (hsorted.sublist hloses.entries)
      rw [hloses.config] at hroomy
      have hlt := hroomy (hloses.entries.length_le.trans hbound)
      exact (length_keep_le _ _ _).trans hlt
  | off _ hloses => exact hloses.entries.length_le.trans hbound

/-! ## What is lost -/

/-- When nothing is stored, nothing makes room. -/
theorem Served.evictions_of_none (h : Served cache event after none used) :
    after.evictions = cache.evictions := by
  cases h with
  | cleared => rfl
  | lost hloses => exact hloses.evictions
  | hit => rfl

/-- A cache that is switched on stores a path after it has made room. -/
theorem Served.of_stored {shared : SharedPath} (h : Served cache event after (some shared) used)
    (henabled : cache.config.enabled = true) :
    Loses event.now cache (cache.found event)
      ∧ after = (cache.found event).roomy.keep shared.path.text ⟨shared, event.now, event.now⟩ := by
  cases h with
  | stored _ hloses => exact ⟨hloses, rfl⟩
  | off hdisabled =>
      rw [henabled] at hdisabled
      cases hdisabled

/-- When nothing is stored, an entry is lost only with all others, or when it is too
old. -/
theorem Served.lost_of_none (h : Served cache event after none used) {text : String}
    {entry : CacheEntry} (hmem : (text, entry) ∈ cache.entries) (hlost : text ∉ after.texts) :
    event.call = .clear ∨ entry.isExpired cache.config event.now = true := by
  cases h with
  | cleared hclear => exact .inl hclear
  | lost hloses =>
      refine .inr (hloses.expired _ hmem fun hafter => hlost ?_)
      exact List.mem_map_of_mem hafter
  | @hit key old hfind =>
      have htext : text ∈ cache.texts := List.mem_map_of_mem hmem
      have hkept : text ∈ (cache.keep key { old with accessed := event.now }).texts := by
        by_cases hkey : text = key
        · simp [texts_keep, hkey]
        · simp [texts_keep, htext, hkey]
      exact absurd hkept hlost

end

/-! ## The order of the last uses -/

section

variable {config : CacheConfig} {events : List CacheEvent} {event : CacheEvent}

/-- Each event of a run is later than the ones before. -/
def Advances (events : List CacheEvent) : Prop :=
  events.Pairwise fun older newer => older.now < newer.now

theorem accessed_lt {now : Nat} (hlater : ∀ earlier ∈ events, earlier.now < now)
    {item : String × CacheEntry} (h : item ∈ (run config events).entries) :
    item.2.accessed < now := by
  obtain ⟨earlier, event, later, hlast, htime⟩ := (accounted h).used
  rw [← htime]
  exact hlater event (by simp [hlast.split])

theorem sorted_run (hadvances : Advances events) : (run config events).Sorted := by
  induction events using List.reverseRecOn with
  | nil => exact List.Pairwise.nil
  | append_singleton events event ih =>
      obtain ⟨hevents, -, hlater⟩ := List.pairwise_append.mp hadvances
      refine (served_run config events event).sorted (ih hevents) fun item hitem => ?_
      exact accessed_lt (fun earlier hearlier => hlater earlier hearlier event (by simp)) hitem

theorem length_run_le (hadvances : Advances events) :
    (run config events).entries.length ≤ max config.maxEntries 1 := by
  induction events using List.reverseRecOn with
  | nil => exact Nat.zero_le _
  | append_singleton events event ih =>
      obtain ⟨hevents, -, -⟩ := List.pairwise_append.mp hadvances
      have hlength := (served_run config events event).length_le (nodup_texts_run config events)
        (sorted_run hevents)
      rw [config_run] at hlength
      exact hlength (ih hevents)

/-- A path is stored, after some texts have made room and others have stayed. -/
structure MakesRoom (config : CacheConfig) (events : List CacheEvent) (event : CacheEvent)
    (shared : SharedPath) (gone kept : List String) : Prop where
  /-- The texts that were there when the path was to be stored. -/
  found : ((run config events).found event).texts = gone ++ kept
  /-- Apart from them, entries are lost that are too old. -/
  expired : ∀ text entry, (text, entry) ∈ (run config events).entries → text ∉ gone ++ kept →
    entry.isExpired config event.now = true
  /-- The cache was full, or nothing has made room. -/
  count : gone.length = if config.maxEntries ≤ (gone ++ kept).length then
    min (gone ++ kept).length (max 1 (config.maxEntries / 5)) else 0
  /-- The cache counts what has made room. -/
  evictions : (run config (events ++ [event])).evictions
    = (run config events).evictions + gone.length
  /-- The path is there in the end, and so is what has stayed. -/
  texts : (run config (events ++ [event])).texts
    = kept.filter (· ≠ shared.path.text) ++ [shared.path.text]
  /-- What has made room was last used before anything that has stayed. -/
  older : ∀ old ∈ gone, ∀ recent ∈ kept, ∃ time time', LastUsed config events old time
    ∧ LastUsed config events recent time' ∧ time < time'

theorem makesRoom_of_stored (henabled : config.enabled = true) (hadvances : Advances events)
    {shared : SharedPath} (h : (run config events).stored? event = some shared) :
    ∃ gone kept, MakesRoom config events event shared gone kept := by
  have hserved := served_run config events event
  rw [h] at hserved
  obtain ⟨hloses, hafter⟩ := hserved.of_stored (by rw [config_run, henabled])
  have hsorted := (sorted_run hadvances).sublist hloses.entries
  obtain ⟨gone, kept, hsplit, hkept, hcount, hevictions⟩ :=
    roomy_of_sorted ((nodup_texts_run config events).sublist hloses.texts_sublist) hsorted
  have hfound : ((run config events).found event).texts
      = gone.map Prod.fst ++ kept.map Prod.fst := by
    rw [texts, hsplit, List.map_append]
  have hused : ∀ item ∈ gone ++ kept, LastUsed config events item.1 item.2.accessed := by
    intro item hitem
    rw [← hsplit] at hitem
    exact (accounted (hloses.entries.subset hitem)).used
  refine ⟨gone.map Prod.fst, kept.map Prod.fst, hfound, ?_, ?_, ?_, ?_, ?_⟩
  · intro text entry hmem hnot
    rw [← hfound] at hnot
    have hexpired := hloses.expired (text, entry) hmem fun hitem =>
      hnot (List.mem_map_of_mem hitem)
    rwa [config_run] at hexpired
  · rw [hloses.config, config_run, hsplit] at hcount
    simpa [excess] using hcount
  · rw [hafter, List.length_map, ← hloses.evictions]
    exact hevictions
  · rw [hafter, texts_keep, texts, hkept]
  · intro old hold recent hrecent
    obtain ⟨first, hfirst, rfl⟩ := List.mem_map.mp hold
    obtain ⟨second, hsecond, rfl⟩ := List.mem_map.mp hrecent
    rw [hsplit] at hsorted
    exact ⟨first.2.accessed, second.2.accessed, hused first (List.mem_append_left _ hfirst),
      hused second (List.mem_append_right _ hsecond),
      (List.pairwise_append.mp hsorted).2.2 first hfirst second hsecond⟩

/-- A cache that is switched on is bounded and forgets what was used the longest ago,
while time advances from call to call.

* It never has more entries than its bound, or than one if the bound is zero.
* An event that stores nothing makes no room, and loses at most entries that are too
  old, unless it drops all of them.
* An event that stores a path makes room if the cache is full then.  A fifth of the bound
  goes, at least one entry if there is any, and all of it was last used before anything
  that stays.
* A path that is found is the last one that was stored under the text, and it has been
  there ever since. -/
theorem cache_recency {config : CacheConfig} (henabled : config.enabled = true)
    {events : List CacheEvent} (hadvances : Advances events) :
    (run config events).entries.length ≤ max config.maxEntries 1
      ∧ (∀ event, (run config events).stored? event = none →
          (run config (events ++ [event])).evictions = (run config events).evictions
          ∧ ∀ text entry, (text, entry) ∈ (run config events).entries →
              text ∉ (run config (events ++ [event])).texts →
              event.call = .clear ∨ entry.isExpired config event.now = true)
      ∧ (∀ event shared, (run config events).stored? event = some shared →
          ∃ gone kept, MakesRoom config events event shared gone kept)
      ∧ ∀ now text shared, ((run config events).get now text).2 = some shared →
          ∃ time, Kept config events text shared time := by
  refine ⟨length_run_le hadvances, fun event hnone => ?_,
    fun event shared hstored => makesRoom_of_stored henabled hadvances hstored,
    fun now text shared h => ?_⟩
  · have hserved := served_run config events event
    rw [hnone] at hserved
    refine ⟨hserved.evictions_of_none, fun text entry hmem hlost => ?_⟩
    have hexpired := hserved.lost_of_none hmem hlost
    rwa [config_run] at hexpired
  · obtain ⟨entry, hmem, rfl, -⟩ := entry_of_get (nodup_texts_run config events) h
    exact ⟨entry.created, (accounted hmem).kept⟩

/-- The text `a` was stored first and used last, so `b` makes room for `c`. -/
theorem cache_recency_in_three :
    let config : CacheConfig := ⟨2, true, none⟩
    let shared : String → SharedPath := fun name => ⟨0, ⟨name, [⟨.child name, 1⟩]⟩⟩
    let events : List CacheEvent := [⟨1, .put (shared "a")⟩, ⟨2, .put (shared "b")⟩, ⟨3, .get "a"⟩]
    let event : CacheEvent := ⟨4, .put (shared "c")⟩
    Advances events ∧ (run config events).texts = ["b", "a"]
      ∧ (∃ gone kept, MakesRoom config events event (shared "c") gone kept)
      ∧ (run config (events ++ [event])).texts = ["a", "c"]
      ∧ ∃ time, Kept config (events ++ [event]) "a" (shared "a") time := by
  intro config shared events event
  have hadvances : Advances events := by simp [Advances, events]
  have hnext : Advances (events ++ [event]) := by simp [Advances, events, event]
  obtain ⟨-, -, hroom, -⟩ := @cache_recency config rfl events hadvances
  obtain ⟨-, -, -, hfound⟩ := @cache_recency config rfl (events ++ [event]) hnext
  exact ⟨hadvances, by cbv, hroom event (shared "c") rfl, by cbv,
    hfound 5 "a" (shared "a") (by cbv)⟩

end

end TreeQuery.PathCache
