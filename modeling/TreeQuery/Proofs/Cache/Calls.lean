import Mathlib
import TreeQuery.PathCache

/-!
# Runs of a cache

A run of a cache is a list of calls, each at a time, from an empty cache on.  A call
first drops entries or finds one, and then it may put a path (`PathCache.Served`).  These
are all ways in which a cache changes.

An entry remembers when it was stored and when it was last used.  A run tells more: the
event that put the path of the entry, and that the entry has been there since
(`accounted`).  What the entry remembers are the times of the last put and of the last
use of its text in the run.

The entries of a cache are a list, but no two have the same text (`nodup_texts_run`).
-/

namespace TreeQuery

/-- A call of a cache. -/
inductive CacheCall where
  /-- Ask for the path of a text. -/
  | get (text : String)
  /-- Ask for the path of a text, which is read if the cache does not have it.  It gets
  the number then. -/
  | getOrParse (text : String) (id : Nat)
  /-- Store a path. -/
  | put (shared : SharedPath)
  /-- Drop all entries. -/
  | clear
  /-- Drop the entries that are too old. -/
  | cleanup
deriving Repr

/-- A call at a time. -/
structure CacheEvent where
  /-- The time. -/
  now : Nat
  /-- The call. -/
  call : CacheCall
deriving Repr

namespace PathCache

/-! ## Calls -/

/-- What an event leaves, and the path that it returns. -/
def serve (cache : PathCache) (event : CacheEvent) : PathCache × Option SharedPath :=
  match event.call with
  | .get text => cache.get event.now text
  | .getOrParse text id =>
      let (result, outcome) := cache.getOrParse event.now id text
      (result, outcome.toOption)
  | .put shared => (cache.put event.now shared, none)
  | .clear => (cache.clear, none)
  | .cleanup => (cache.cleanup event.now, none)

/-- The path that an event stores. -/
def stored? (cache : PathCache) (event : CacheEvent) : Option SharedPath :=
  match event.call with
  | .put shared => some shared
  | .getOrParse text id =>
      match (cache.get event.now text).2, Path.parse text with
      | none, .ok path => some ⟨id, path⟩
      | _, _ => none
  | _ => none

/-- The path that an event stores or returns. -/
def used? (cache : PathCache) (event : CacheEvent) : Option SharedPath :=
  (cache.stored? event).or (cache.serve event).2

/-- The cache that an event leaves before it stores a path. -/
def found (cache : PathCache) (event : CacheEvent) : PathCache :=
  match event.call with
  | .get text => (cache.get event.now text).1
  | .getOrParse text _ => (cache.get event.now text).1
  | .put _ => cache
  | .clear => cache.clear
  | .cleanup => cache.cleanup event.now

/-- The texts of the entries. -/
def texts (cache : PathCache) : List String := cache.entries.map Prod.fst

/-- Nothing is lost from a cache but entries that are too old. -/
structure Loses (now : Nat) (before after : PathCache) : Prop where
  config : after.config = before.config
  evictions : after.evictions = before.evictions
  entries : after.entries.Sublist before.entries
  expired : ∀ item ∈ before.entries, item ∉ after.entries →
    item.2.isExpired before.config now = true

theorem Loses.refl (now : Nat) (cache : PathCache) : Loses now cache cache :=
  ⟨rfl, rfl, List.Sublist.refl _, fun _ hmem hnot => absurd hmem hnot⟩

theorem mem_of_find? {cache : PathCache} {text : String} {entry : CacheEntry}
    (h : cache.find? text = some entry) : (text, entry) ∈ cache.entries := by
  obtain ⟨before, after, hsplit, -⟩ := List.lookup_eq_some_iff.mp h
  simp [hsplit]

/-- No two entries have the same text. -/
theorem entry_unique {cache : PathCache} (hnodup : cache.texts.Nodup) {text : String}
    {first second : CacheEntry} (hfirst : (text, first) ∈ cache.entries)
    (hsecond : (text, second) ∈ cache.entries) : first = second := by
  have hpair := List.inj_on_of_nodup_map hnodup hfirst hsecond rfl
  exact (Prod.mk.inj hpair).2

/-! ## What a call does -/

/-- Asking for a path finds one, or it loses at most an entry that is too old. -/
inductive Asked (cache : PathCache) (now : Nat) (text : String) :
    PathCache × Option SharedPath → Prop where
  | miss {after : PathCache} : Loses now cache after → Asked cache now text (after, none)
  | hit {entry : CacheEntry} : cache.find? text = some entry →
      entry.isExpired cache.config now = false →
      Asked cache now text
        ({ cache.keep text { entry with accessed := now } with hits := cache.hits + 1 },
          some entry.shared)

theorem asked_get {cache : PathCache} (hnodup : cache.texts.Nodup) (now : Nat) (text : String) :
    Asked cache now text (cache.get now text) := by
  rw [get]
  cases henabled : cache.config.enabled with
  | false => exact .miss (.refl now cache)
  | true =>
      simp only [Bool.not_true, Bool.false_eq_true, if_false]
      cases hfind : cache.find? text with
      | none => exact .miss ⟨rfl, rfl, List.Sublist.refl _, fun _ hmem hnot => absurd hmem hnot⟩
      | some entry =>
          dsimp only
          cases hexpired : entry.isExpired cache.config now with
          | false => exact .hit hfind hexpired
          | true =>
              -- Only the entry of the text is lost.
              refine .miss ⟨rfl, rfl, List.filter_sublist, fun (key, other) hmem hnot => ?_⟩
              have hkey : key = text := by simpa [drop, hmem] using hnot
              rw [hkey] at hmem
              rw [entry_unique hnodup hmem (mem_of_find? hfind), hexpired]

/-- A path that is found has an entry that is not too old. -/
theorem entry_of_get {cache : PathCache} {now : Nat} {text : String} {shared : SharedPath}
    (hnodup : cache.texts.Nodup) (h : (cache.get now text).2 = some shared) :
    ∃ entry, (text, entry) ∈ cache.entries ∧ entry.shared = shared
      ∧ entry.isExpired cache.config now = false := by
  have hasked := asked_get hnodup now text
  generalize cache.get now text = outcome at hasked h
  cases hasked with
  | miss => cases h
  | @hit entry hfind hexpired => exact ⟨entry, mem_of_find? hfind, Option.some.inj h, hexpired⟩

/-- The cache that a path is stored in: it has room. -/
def roomy (cache : PathCache) : PathCache :=
  if cache.config.maxEntries ≤ cache.entries.length then cache.evict else cache

theorem put_of_enabled {cache : PathCache} (h : cache.config.enabled = true) (now : Nat)
    (shared : SharedPath) :
    cache.put now shared = cache.roomy.keep shared.path.text ⟨shared, now, now⟩ := by
  simp [put, h, roomy]

theorem put_of_disabled {cache : PathCache} (h : cache.config.enabled = false) (now : Nat)
    (shared : SharedPath) : cache.put now shared = cache := by
  simp [put, h]

/-- What an event does to a cache, with the path that it stores and the path that it
stores or returns. -/
inductive Served (cache : PathCache) (event : CacheEvent) :
    PathCache → Option SharedPath → Option SharedPath → Prop where
  /-- All entries are dropped. -/
  | cleared : event.call = .clear → Served cache event cache.clear none none
  /-- Some entries are dropped that are too old. -/
  | lost {after : PathCache} : Loses event.now cache after → Served cache event after none none
  /-- An entry is found and used. -/
  | hit {text : String} {entry : CacheEntry} :
      cache.find? text = some entry → entry.isExpired cache.config event.now = false →
      Served cache event
        { cache.keep text { entry with accessed := event.now } with hits := cache.hits + 1 }
        none (some entry.shared)
  /-- A path is stored, after entries were dropped that are too old. -/
  | stored {shared : SharedPath} : cache.config.enabled = true →
      Loses event.now cache (cache.found event) →
      Served cache event
        ((cache.found event).roomy.keep shared.path.text ⟨shared, event.now, event.now⟩)
        (some shared) (some shared)
  /-- The cache is switched off and stores nothing. -/
  | off {shared : SharedPath} {after : PathCache} : cache.config.enabled = false →
      Loses event.now cache after → Served cache event after (some shared) (some shared)

/-- To put a path is one of these ways. -/
theorem served_put {cache : PathCache} {event : CacheEvent}
    (h : Loses event.now cache (cache.found event)) (shared : SharedPath) :
    Served cache event ((cache.found event).put event.now shared) (some shared) (some shared) := by
  cases henabled : cache.config.enabled with
  | false =>
      rw [put_of_disabled (by rw [h.config, henabled])]
      exact .off henabled h
  | true =>
      rw [put_of_enabled (by rw [h.config, henabled])]
      exact .stored henabled h

theorem served {cache : PathCache} (hnodup : cache.texts.Nodup) (event : CacheEvent) :
    Served cache event (cache.serve event).1 (cache.stored? event) (cache.used? event) := by
  obtain ⟨now, call⟩ := event
  cases call with
  | get text =>
      have hasked := asked_get hnodup now text
      simp only [used?, serve, stored?, Option.none_or]
      generalize cache.get now text = outcome at hasked
      cases hasked with
      | miss hloses => exact .lost hloses
      | hit hfind hexpired => exact .hit hfind hexpired
  | getOrParse text id =>
      have hasked := asked_get hnodup now text
      have hfound : cache.found ⟨now, .getOrParse text id⟩ = (cache.get now text).1 := rfl
      simp only [used?, serve, stored?, getOrParse]
      generalize cache.get now text = outcome at hasked hfound
      cases hasked with
      | @miss after hloses =>
          cases Path.parse text with
          | ok path =>
              obtain rfl : cache.found ⟨now, .getOrParse text id⟩ = after := hfound
              exact served_put hloses ⟨id, path⟩
          | error error => exact .lost hloses
      | hit hfind hexpired => exact .hit hfind hexpired
  | put shared => exact @served_put cache ⟨now, .put shared⟩ (.refl now cache) shared
  | clear => exact .cleared rfl
  | cleanup =>
      refine .lost ⟨rfl, rfl, List.filter_sublist, fun item hmem hnot => ?_⟩
      simpa [serve, cleanup, hmem] using hnot

/-! ## The entries after a call -/

section

variable {cache : PathCache} {text key : String} {entry other : CacheEntry} {now : Nat}
  {shared : SharedPath}

theorem mem_keep : (key, entry) ∈ (cache.keep text other).entries
    ↔ ((key, entry) ∈ cache.entries ∧ key ≠ text) ∨ (key = text ∧ entry = other) := by
  simp [keep, drop]

theorem texts_keep : (cache.keep text other).texts = cache.texts.filter (· ≠ text) ++ [text] := by
  simp [texts, keep, drop, List.filter_map, Function.comp_def]

theorem nodup_texts_keep (h : cache.texts.Nodup) : (cache.keep text other).texts.Nodup := by
  rw [texts_keep]
  exact (h.filter _).append (List.nodup_singleton text) (by simp)

theorem Loses.texts_sublist {after : PathCache} (h : Loses now cache after) :
    after.texts.Sublist cache.texts :=
  h.entries.map Prod.fst

end

theorem config_roomy (cache : PathCache) : cache.roomy.config = cache.config := by
  rw [roomy]
  split
  · rfl
  · rfl

theorem roomy_sublist (cache : PathCache) : cache.roomy.entries.Sublist cache.entries := by
  rw [roomy]
  split
  · exact List.filter_sublist
  · exact List.Sublist.refl _

section

variable {cache after : PathCache} {event : CacheEvent} {stored used : Option SharedPath}

theorem Served.config (h : Served cache event after stored used) :
    after.config = cache.config := by
  cases h with
  | cleared => rfl
  | lost hloses => exact hloses.config
  | hit => rfl
  | stored _ hloses => exact (config_roomy _).trans hloses.config
  | off _ hloses => exact hloses.config

theorem Served.nodup_texts (h : Served cache event after stored used)
    (hnodup : cache.texts.Nodup) : after.texts.Nodup := by
  cases h with
  | cleared => exact List.nodup_nil
  | lost hloses => exact hnodup.sublist hloses.texts_sublist
  | hit => exact nodup_texts_keep hnodup
  | stored _ hloses =>
      have hfound := hnodup.sublist hloses.texts_sublist
      exact nodup_texts_keep (hfound.sublist ((roomy_sublist _).map Prod.fst))
  | off _ hloses => exact hnodup.sublist hloses.texts_sublist

theorem Served.entries_of_disabled (h : Served cache event after stored used)
    (hdisabled : cache.config.enabled = false) (hnil : cache.entries = []) :
    after.entries = [] := by
  cases h with
  | cleared => rfl
  | lost hloses => simpa [hnil] using hloses.entries
  | hit hfind =>
      have hmem := mem_of_find? hfind
      simp [hnil] at hmem
  | stored henabled =>
      rw [hdisabled] at henabled
      cases henabled
  | off _ hloses => simpa [hnil] using hloses.entries

/-- Where an entry comes from that is there after an event. -/
inductive Origin (cache : PathCache) (now : Nat) (stored used : Option SharedPath)
    (text : String) : CacheEntry → Prop where
  /-- The event has stored it. -/
  | new {shared : SharedPath} : stored = some shared → used = some shared →
      shared.path.text = text → Origin cache now stored used text ⟨shared, now, now⟩
  /-- It was there, and the event has returned its path. -/
  | used {old : CacheEntry} : (text, old) ∈ cache.entries → stored = none →
      used = some old.shared → Origin cache now stored used text { old with accessed := now }
  /-- It was there, and the event was about other texts. -/
  | same {entry : CacheEntry} : (text, entry) ∈ cache.entries →
      (∀ shared, stored = some shared → shared.path.text ≠ text) →
      (∀ shared, used = some shared → shared.path.text ≠ text) →
      Origin cache now stored used text entry

theorem Served.origin (h : Served cache event after stored used)
    (henabled : cache.config.enabled = true)
    (htexts : ∀ text entry, (text, entry) ∈ cache.entries → entry.shared.path.text = text)
    {text : String} {entry : CacheEntry} (hmem : (text, entry) ∈ after.entries) :
    Origin cache event.now stored used text entry := by
  cases h with
  | cleared => simp [clear] at hmem
  | lost hloses => exact .same (hloses.entries.subset hmem) nofun nofun
  | @hit key old hfind =>
      have hold := mem_of_find? hfind
      rcases mem_keep.mp hmem with ⟨hmem, hne⟩ | ⟨rfl, rfl⟩
      · refine .same hmem nofun fun shared hshared => ?_
        rw [← Option.some.inj hshared, htexts key old hold]
        exact hne.symm
      · exact .used hold rfl rfl
  | @stored shared _ hloses =>
      rcases mem_keep.mp hmem with ⟨hmem, hne⟩ | ⟨rfl, rfl⟩
      · have hold := hloses.entries.subset ((roomy_sublist _).subset hmem)
        have hother : ∀ other, some shared = some other → other.path.text ≠ text := by
          intro other hother
          rw [← Option.some.inj hother]
          exact hne.symm
        exact .same hold hother hother
      · exact .new rfl rfl rfl
  | off hdisabled =>
      rw [henabled] at hdisabled
      cases hdisabled

end

/-! ## Runs -/

/-- The cache after some events, from an empty one on. -/
def run (config : CacheConfig) (events : List CacheEvent) : PathCache :=
  events.foldl (fun cache event => (cache.serve event).1) ⟨config, [], 0, 0, 0⟩

variable {config : CacheConfig} {events earlier later : List CacheEvent} {event : CacheEvent}

theorem run_concat : run config (events ++ [event]) = ((run config events).serve event).1 := by
  simp [run]

theorem nodup_texts_run (config : CacheConfig) (events : List CacheEvent) :
    (run config events).texts.Nodup := by
  induction events using List.reverseRecOn with
  | nil => exact List.nodup_nil
  | append_singleton events event ih =>
      rw [run_concat]
      exact (served ih event).nodup_texts ih

theorem served_run (config : CacheConfig) (events : List CacheEvent) (event : CacheEvent) :
    Served (run config events) event (run config (events ++ [event]))
      ((run config events).stored? event) ((run config events).used? event) := by
  rw [run_concat]
  exact served (nodup_texts_run config events) event

theorem config_run (config : CacheConfig) (events : List CacheEvent) :
    (run config events).config = config := by
  induction events using List.reverseRecOn with
  | nil => rfl
  | append_singleton events event ih => rw [(served_run config events event).config, ih]

/-- A cache that is switched off keeps nothing. -/
theorem entries_run_of_disabled (h : config.enabled = false) (events : List CacheEvent) :
    (run config events).entries = [] := by
  induction events using List.reverseRecOn with
  | nil => rfl
  | append_singleton events event ih =>
      exact (served_run config events event).entries_of_disabled (by rw [config_run, h]) ih

/-! ## The last event of a kind -/

/-- The last event of a run that does something, with the events before and after it. -/
structure Last (config : CacheConfig) (does : PathCache → CacheEvent → Prop)
    (events earlier : List CacheEvent) (event : CacheEvent) (later : List CacheEvent) : Prop where
  split : events = earlier ++ event :: later
  done : does (run config earlier) event
  undone : ∀ between other rest, later = between ++ other :: rest →
    ¬does (run config (earlier ++ event :: between)) other

variable {does : PathCache → CacheEvent → Prop} {next : CacheEvent}

theorem Last.here (h : does (run config events) event) :
    Last config does (events ++ [event]) events event [] :=
  ⟨rfl, h, by simp⟩

theorem Last.concat (h : Last config does events earlier event later)
    (hnext : ¬does (run config events) next) :
    Last config does (events ++ [next]) earlier event (later ++ [next]) := by
  refine ⟨by simp [h.split], h.done, fun between other rest hsplit => ?_⟩
  rcases List.eq_nil_or_concat rest with rfl | ⟨before, last, rfl⟩
  · obtain ⟨rfl, hother⟩ := List.append_inj' hsplit rfl
    obtain rfl := (List.cons.inj hother).1
    rwa [← h.split]
  · rw [List.concat_eq_append, ← List.cons_append, ← List.append_assoc] at hsplit
    exact h.undone between other before (List.append_inj' hsplit rfl).1

/-- The event stores a path under a text. -/
def Stores (text : String) (cache : PathCache) (event : CacheEvent) : Prop :=
  ∃ shared, cache.stored? event = some shared ∧ shared.path.text = text

/-- The event stores or returns a path with a text. -/
def Uses (text : String) (cache : PathCache) (event : CacheEvent) : Prop :=
  ∃ shared, cache.used? event = some shared ∧ shared.path.text = text

/-- There is an entry of a text, and it has a path. -/
def Holds (cache : PathCache) (text : String) (shared : SharedPath) : Prop :=
  ∃ entry, (text, entry) ∈ cache.entries ∧ entry.shared = shared

/-- A path is the last one that was stored under a text.  That was at a time, and the
path has been there ever since. -/
def Kept (config : CacheConfig) (events : List CacheEvent) (text : String) (shared : SharedPath)
    (time : Nat) : Prop :=
  ∃ earlier event later, Last config (Stores text) events earlier event later
    ∧ (run config earlier).stored? event = some shared ∧ event.now = time
    ∧ ∀ between rest, later = between ++ rest →
      (run config (earlier ++ event :: between)).Holds text shared

/-- The time at which a text was last used. -/
def LastUsed (config : CacheConfig) (events : List CacheEvent) (text : String) (time : Nat) :
    Prop :=
  ∃ earlier event later, Last config (Uses text) events earlier event later ∧ event.now = time

theorem Kept.concat {text : String} {shared : SharedPath} {time : Nat}
    (h : Kept config events text shared time) (hnext : ¬Stores text (run config events) next)
    (hholds : (run config (events ++ [next])).Holds text shared) :
    Kept config (events ++ [next]) text shared time := by
  obtain ⟨earlier, event, later, hlast, hstored, htime, hkept⟩ := h
  refine ⟨earlier, event, later ++ [next], hlast.concat hnext, hstored, htime,
    fun between rest hsplit => ?_⟩
  rcases List.eq_nil_or_concat rest with rfl | ⟨before, last, rfl⟩
  · rw [List.append_nil] at hsplit
    rw [← hsplit, ← List.cons_append, ← List.append_assoc, ← hlast.split]
    exact hholds
  · rw [List.concat_eq_append, ← List.append_assoc] at hsplit
    exact hkept between before (List.append_inj' hsplit rfl).1

theorem LastUsed.concat {text : String} {time : Nat} (h : LastUsed config events text time)
    (hnext : ¬Uses text (run config events) next) :
    LastUsed config (events ++ [next]) text time := by
  obtain ⟨earlier, event, later, hlast, htime⟩ := h
  exact ⟨earlier, event, later ++ [next], hlast.concat hnext, htime⟩

/-- An entry is what the run says about its text. -/
structure Accounted (config : CacheConfig) (events : List CacheEvent) (text : String)
    (entry : CacheEntry) : Prop where
  text_eq : entry.shared.path.text = text
  kept : Kept config events text entry.shared entry.created
  used : LastUsed config events text entry.accessed

theorem accounted_of_enabled (henabled : config.enabled = true) {text : String}
    {entry : CacheEntry} (h : (text, entry) ∈ (run config events).entries) :
    Accounted config events text entry := by
  induction events using List.reverseRecOn generalizing text entry with
  | nil => cases h
  | append_singleton events event ih =>
      have hserved := served_run config events event
      have horigin := hserved.origin (by rw [config_run, henabled])
        (fun text entry hmem => (ih hmem).text_eq) h
      have hholds : (run config (events ++ [event])).Holds text entry.shared := ⟨entry, h, rfl⟩
      cases horigin with
      | @new shared hstored hused htext =>
          refine ⟨htext, ⟨events, event, [], .here ⟨shared, hstored, htext⟩, hstored, rfl, ?_⟩,
            events, event, [], .here ⟨shared, hused, htext⟩, rfl⟩
          intro between rest hsplit
          obtain ⟨rfl, -⟩ := List.append_eq_nil_iff.mp hsplit.symm
          exact hholds
      | @used old hold hstored hused =>
          have haccounted := ih hold
          have hstores : ¬Stores text (run config events) event := by simp [Stores, hstored]
          exact ⟨haccounted.text_eq, haccounted.kept.concat hstores hholds,
            events, event, [], .here ⟨old.shared, hused, haccounted.text_eq⟩, rfl⟩
      | same hold hstored hused =>
          have haccounted := ih hold
          have hstores : ¬Stores text (run config events) event := by
            rintro ⟨shared, hshared, htext⟩
            exact hstored shared hshared htext
          have huses : ¬Uses text (run config events) event := by
            rintro ⟨shared, hshared, htext⟩
            exact hused shared hshared htext
          exact ⟨haccounted.text_eq, haccounted.kept.concat hstores hholds,
            haccounted.used.concat huses⟩

/-- Every entry of a run is accounted for. -/
theorem accounted {text : String} {entry : CacheEntry}
    (h : (text, entry) ∈ (run config events).entries) : Accounted config events text entry := by
  cases henabled : config.enabled with
  | true => exact accounted_of_enabled henabled h
  | false => simp [entries_run_of_disabled henabled] at h

end PathCache

end TreeQuery
