import Mathlib
import TreeQuery.Proofs.Cache.Calls
import TreeQuery.Proofs.Path.Parsing

/-!
# The counts of a cache

Each request for a path is counted once, as a hit or as a miss.  Calls that make no
request leave both counts alone (`answered_serve`).

Entries and evictions balance what is read.  While entries do not grow too old, a request
adds an entry only when it has missed a text that is a path.  The text has no entry then,
so there is one entry more (`stock_keep_of_notMem`).  What makes room moves from the
entries to the evictions one by one (`stock_evict`), since the texts of the entries are
distinct.  It does not matter how much room is asked for, nor in which order entries make
room.

Both are laws of one step.  `cache_statistics` sums them up over a run.
-/

namespace TreeQuery

/-- The call asks for the path of a text. -/
def CacheCall.isRequest : CacheCall → Bool
  | .get _ | .getOrParse _ _ => true
  | _ => false

namespace PathCache

/-- The requests that were counted. -/
def answered (cache : PathCache) : Nat := cache.hits + cache.misses

/-- The entries that are there and those that have made room. -/
def stock (cache : PathCache) : Nat := cache.entries.length + cache.evictions

/-- The event is counted as a miss of a text that is a path. -/
def readsMissing (cache : PathCache) (event : CacheEvent) : Bool :=
  match event.call with
  | .getOrParse text _ =>
      (Path.parse text).isOk && decide (cache.misses < (cache.serve event).1.misses)
  | _ => false

/-- The number of events of a run that satisfy a condition on the cache before them. -/
def tally (condition : PathCache → CacheEvent → Bool) (config : CacheConfig)
    (events : List CacheEvent) : Nat :=
  (List.range events.length).countP fun time =>
    events[time]?.any (condition (run config (events.take time)))

variable {cache : PathCache} {event : CacheEvent} {now : Nat} {text : String}
  {entry : CacheEntry} {shared : SharedPath}

/-! ## Requests -/

/-- What a request finds, and what it counts. -/
inductive Lookup (cache : PathCache) (now : Nat) (text : String) :
    PathCache × Option SharedPath → Prop where
  /-- The cache is switched off. -/
  | off : cache.config.enabled = false → Lookup cache now text (cache, none)
  /-- The text has no entry. -/
  | absent : cache.config.enabled = true → text ∉ cache.texts →
      Lookup cache now text ({ cache with misses := cache.misses + 1 }, none)
  /-- The entry of the text is too old. -/
  | expired {entry : CacheEntry} : cache.config.enabled = true →
      entry.isExpired cache.config now = true →
      Lookup cache now text ({ cache.drop text with misses := cache.misses + 1 }, none)
  /-- The text has an entry. -/
  | hit {entry : CacheEntry} : cache.config.enabled = true → (text, entry) ∈ cache.entries →
      Lookup cache now text
        ({ cache.keep text { entry with accessed := now } with hits := cache.hits + 1 },
          some entry.shared)

theorem lookup_get (cache : PathCache) (now : Nat) (text : String) :
    Lookup cache now text (cache.get now text) := by
  rw [get]
  cases henabled : cache.config.enabled with
  | false => exact .off henabled
  | true =>
      simp only [Bool.not_true, Bool.false_eq_true, if_false]
      cases hfind : cache.find? text with
      | none =>
          refine .absent henabled fun hmem => ?_
          obtain ⟨item, hitem, rfl⟩ := List.mem_map.mp hmem
          simpa using List.lookup_eq_none_iff.mp hfind item hitem
      | some entry =>
          dsimp only
          split
          · next hexpired => exact .expired henabled hexpired
          · exact .hit henabled (mem_of_find? hfind)

theorem misses_put (cache : PathCache) (now : Nat) (shared : SharedPath) :
    (cache.put now shared).misses = cache.misses
      ∧ (cache.put now shared).answered = cache.answered := by
  cases henabled : cache.config.enabled with
  | false =>
      rw [put_of_disabled henabled]
      exact ⟨rfl, rfl⟩
  | true =>
      rw [put_of_enabled henabled, roomy]
      split
      · exact ⟨rfl, rfl⟩
      · exact ⟨rfl, rfl⟩

/-- To read a text if need be counts as to ask for it. -/
theorem misses_getOrParse (cache : PathCache) (now id : Nat) (text : String) :
    (cache.getOrParse now id text).1.misses = (cache.get now text).1.misses
      ∧ (cache.getOrParse now id text).1.answered = (cache.get now text).1.answered := by
  rw [getOrParse]
  generalize cache.get now text = outcome
  obtain ⟨after, _ | shared⟩ := outcome
  · dsimp only
    cases Path.parse text with
    | ok path => exact misses_put after now ⟨id, path⟩
    | error error => exact ⟨rfl, rfl⟩
  · exact ⟨rfl, rfl⟩

theorem answered_get (henabled : cache.config.enabled = true) (now : Nat) (text : String) :
    (cache.get now text).1.answered = cache.answered + 1 := by
  have hlookup := lookup_get cache now text
  generalize cache.get now text = outcome at hlookup
  cases hlookup with
  | off hdisabled => simp [henabled] at hdisabled
  | absent => rfl
  | expired => rfl
  | hit => exact Nat.add_right_comm ..

/-- A request is counted once, and nothing else is. -/
theorem answered_serve (henabled : cache.config.enabled = true) (event : CacheEvent) :
    (cache.serve event).1.answered
      = cache.answered + if event.call.isRequest then 1 else 0 := by
  obtain ⟨now, call⟩ := event
  cases call with
  | get text => exact answered_get henabled now text
  | getOrParse text id =>
      exact (misses_getOrParse cache now id text).2.trans (answered_get henabled now text)
  | put shared => exact (misses_put cache now shared).2
  | clear => rfl
  | cleanup => rfl

/-! ## Entries and evictions -/

/-- The texts that make room are texts of the cache, each once. -/
theorem victims_subperm (cache : PathCache) : cache.victims.Subperm cache.texts := by
  let byAge := cache.entries.mergeSort fun a b => a.2.accessed ≤ b.2.accessed
  have hsublist : cache.victims.Sublist (byAge.map Prod.fst) :=
    (List.take_sublist _ _).map Prod.fst
  have hperm : (byAge.map Prod.fst).Perm cache.texts := (List.mergeSort_perm _ _).map Prod.fst
  exact hsublist.subperm.trans hperm.subperm

/-- What makes room moves from the entries to the evictions. -/
theorem stock_evict (hnodup : cache.texts.Nodup) : cache.evict.stock = cache.stock := by
  have hgone : (cache.texts.filter (· ∈ cache.victims)).Perm cache.victims := by
    obtain ⟨some, hperm, hsublist⟩ := cache.victims_subperm
    have hvictims : cache.victims.Nodup := hperm.nodup_iff.mp (hnodup.sublist hsublist)
    refine (List.perm_ext_iff_of_nodup (hnodup.filter _) hvictims).mpr fun text => ?_
    simpa using fun htext => cache.victims_subperm.subset htext
  have hsplit := cache.texts.length_eq_length_filter_add (· ∈ cache.victims)
  have hkept : (cache.texts.filter fun text => !decide (text ∈ cache.victims)).length
      = cache.evict.entries.length := by
    simp [texts, evict, List.filter_map, Function.comp_def]
  rw [hgone.length_eq, hkept, texts, List.length_map] at hsplit
  have hevictions : cache.evict.evictions = cache.evictions + cache.victims.length := rfl
  rw [stock, stock, hsplit, hevictions]
  omega

theorem stock_roomy (hnodup : cache.texts.Nodup) : cache.roomy.stock = cache.stock := by
  rw [roomy]
  split
  · exact stock_evict hnodup
  · rfl

/-- A text that had no entry gets one. -/
theorem stock_keep_of_notMem (h : text ∉ cache.texts) (entry : CacheEntry) :
    (cache.keep text entry).stock = cache.stock + 1 := by
  have hlength : (cache.keep text entry).texts.length = cache.texts.length + 1 := by
    rw [texts_keep, List.filter_eq_self.mpr]
    · simp
    · intro key hkey
      have hne : key ≠ text := fun heq => h (heq ▸ hkey)
      simpa using hne
  simp only [texts, List.length_map] at hlength
  rw [stock, hlength]
  exact Nat.add_right_comm ..

/-- A text that had an entry has one. -/
theorem stock_keep_of_mem (hnodup : cache.texts.Nodup) (h : text ∈ cache.texts)
    (entry : CacheEntry) : (cache.keep text entry).stock = cache.stock := by
  have hlength : (cache.keep text entry).texts.length = cache.texts.length := by
    have herase : cache.texts.filter (· ≠ text) = cache.texts.erase text := by
      rw [hnodup.erase_eq_filter]
      exact List.filter_congr fun key _ => Bool.eq_iff_iff.mpr (by simp)
    rw [texts_keep, herase, List.length_append, List.length_singleton]
    exact List.length_erase_add_one h
  simp only [texts, List.length_map] at hlength
  rw [stock, hlength]
  rfl

/-- A path is stored in a cache that is switched on and has no entry of its text. -/
theorem stock_put (henabled : cache.config.enabled = true) (hnodup : cache.texts.Nodup)
    (h : shared.path.text ∉ cache.texts) (now : Nat) :
    (cache.put now shared).stock = cache.stock + 1 := by
  have htexts : cache.roomy.texts.Sublist cache.texts := (roomy_sublist cache).map Prod.fst
  rw [put_of_enabled henabled, stock_keep_of_notMem fun hmem => h (htexts.subset hmem),
    stock_roomy hnodup]

/-- While entries do not grow too old, a request adds an entry or an eviction where it has
missed a text that is a path. -/
theorem stock_serve (hnodup : cache.texts.Nodup) (hlasting : cache.config.lifetime = none)
    (hrequest : event.call.isRequest = true) :
    (cache.serve event).1.stock = cache.stock + if cache.readsMissing event then 1 else 0 := by
  obtain ⟨now, call⟩ := event
  cases call with
  | get text =>
      have hlookup := lookup_get cache now text
      show (cache.get now text).1.stock = cache.stock
      generalize cache.get now text = outcome at hlookup
      cases hlookup with
      | off => rfl
      | absent => rfl
      | expired _ hexpired => simp [CacheEntry.isExpired, hlasting] at hexpired
      | hit _ hmem => exact stock_keep_of_mem hnodup (List.mem_map_of_mem hmem) _
  | getOrParse text id =>
      have hlookup := lookup_get cache now text
      have hmisses := (misses_getOrParse cache now id text).1
      have hreads : cache.readsMissing ⟨now, .getOrParse text id⟩
          = ((Path.parse text).isOk && decide (cache.misses < (cache.get now text).1.misses)) := by
        rw [← hmisses]
        rfl
      show (cache.getOrParse now id text).1.stock = _
      rw [hreads, getOrParse]
      generalize cache.get now text = outcome at hlookup
      cases hlookup with
      | off hdisabled =>
          rw [if_neg (by simp)]
          cases Path.parse text with
          | ok path => exact congrArg stock (put_of_disabled hdisabled now _)
          | error error => rfl
      | absent henabled hnot =>
          cases hparse : Path.parse text with
          | ok path =>
              have htext : path.text = text := (Path.parse_eq_ok.mp hparse).1
              rw [← htext] at hnot
              rw [if_pos (by simp [Except.isOk, Except.toBool])]
              exact @stock_put { cache with misses := cache.misses + 1 } ⟨id, path⟩
                henabled hnodup hnot now
          | error error =>
              rw [if_neg (by simp [Except.isOk, Except.toBool])]
              rfl
      | expired _ hexpired => simp [CacheEntry.isExpired, hlasting] at hexpired
      | hit _ hmem =>
          rw [if_neg (by simp [keep, drop])]
          exact stock_keep_of_mem hnodup (List.mem_map_of_mem hmem) _
  | put shared => cases hrequest
  | clear => cases hrequest
  | cleanup => cases hrequest

/-! ## Runs -/

variable {condition : PathCache → CacheEvent → Bool} {config : CacheConfig}
  {events : List CacheEvent}

theorem tally_concat (events : List CacheEvent) (event : CacheEvent) :
    tally condition config (events ++ [event])
      = tally condition config events + if condition (run config events) event then 1 else 0 := by
  have hbefore : (List.range events.length).countP (fun time =>
        (events ++ [event])[time]?.any (condition (run config ((events ++ [event]).take time))))
      = tally condition config events := by
    refine List.countP_congr fun time htime => ?_
    have hlt : time < events.length := List.mem_range.mp htime
    rw [List.getElem?_append_left hlt, List.take_append_of_le_length (Nat.le_of_lt hlt)]
  rw [tally, List.length_append, List.length_singleton, List.range_succ, List.countP_append,
    hbefore]
  simp [List.countP_singleton]

/-- A cache that is switched off stays as it was at the start. -/
theorem run_of_disabled (h : config.enabled = false) (events : List CacheEvent) :
    run config events = ⟨config, [], 0, 0, 0⟩ := by
  induction events using List.reverseRecOn with
  | nil => rfl
  | append_singleton events event ih =>
      obtain ⟨now, call⟩ := event
      rw [run_concat, ih]
      cases call with
      | get text => simp [serve, get, h]
      | getOrParse text id =>
          simp only [serve, getOrParse, get, h, Bool.not_false, if_true]
          cases Path.parse text with
          | ok path => exact put_of_disabled h now _
          | error error => rfl
      | put shared => exact put_of_disabled h now shared
      | clear => rfl
      | cleanup => rfl

theorem answered_run (henabled : config.enabled = true) (events : List CacheEvent) :
    (run config events).answered = events.countP fun event => event.call.isRequest := by
  induction events using List.reverseRecOn with
  | nil => rfl
  | append_singleton events event ih =>
      rw [run_concat, answered_serve (by rw [config_run, henabled]), ih, List.countP_append,
        List.countP_singleton]

theorem stock_run (hlasting : config.lifetime = none)
    (hrequests : ∀ event ∈ events, event.call.isRequest = true) :
    (run config events).stock = tally readsMissing config events := by
  induction events using List.reverseRecOn with
  | nil => rfl
  | append_singleton events event ih =>
      obtain ⟨hevents, hevent⟩ := List.forall_mem_append.mp hrequests
      rw [run_concat, stock_serve (nodup_texts_run config events) (by rw [config_run, hlasting])
        (hevent event (List.mem_singleton_self event)), ih hevents, tally_concat]

/-- The counts of a cache add up, after any calls at any times.

* A cache that is switched on has counted each request for a path, as a hit or as a miss.
* When there were only requests and entries do not grow too old, the entries and the
  evictions together are as many as the requests that have missed a text and read it,
  whatever the bound is.
* A cache that is switched off has no entry and has counted nothing. -/
theorem cache_statistics (config : CacheConfig) (events : List CacheEvent) :
    (config.enabled = true →
        (run config events).hits + (run config events).misses
          = events.countP fun event => event.call.isRequest)
      ∧ (config.lifetime = none → (∀ event ∈ events, event.call.isRequest = true) →
        (run config events).entries.length + (run config events).evictions
          = tally readsMissing config events)
      ∧ (config.enabled = false → run config events = ⟨config, [], 0, 0, 0⟩) :=
  ⟨fun henabled => answered_run henabled events,
    fun hlasting hrequests => stock_run hlasting hrequests,
    fun hdisabled => run_of_disabled hdisabled events⟩

/-- A cache with no room keeps only the path that it read last.  The text `a` makes room
and is read again, and the last text is no path. -/
theorem cache_statistics_without_room :
    let config : CacheConfig := ⟨0, true, none⟩
    let off : CacheConfig := ⟨0, false, none⟩
    let events : List CacheEvent := [⟨1, .getOrParse "a" 1⟩, ⟨2, .getOrParse "b" 2⟩,
      ⟨3, .getOrParse "a" 3⟩, ⟨4, .get "a"⟩, ⟨5, .getOrParse "a[" 5⟩]
    (∀ event ∈ events, event.call.isRequest = true)
      ∧ (run config events).hits + (run config events).misses = 5
      ∧ (run config events).entries.length = 1 ∧ (run config events).evictions = 2
      ∧ tally readsMissing config events = 3
      ∧ run off events = ⟨off, [], 0, 0, 0⟩ := by
  intro config off events
  have hrequests : ∀ event ∈ events, event.call.isRequest = true := by
    simp [events, CacheCall.isRequest]
  obtain ⟨hcounts, hstock, -⟩ := cache_statistics config events
  obtain ⟨-, -, hoff⟩ := cache_statistics off events
  have hentries : (run config events).entries.length = 1 := by cbv
  have hevictions : (run config events).evictions = 2 := by cbv
  refine ⟨hrequests, hcounts rfl, hentries, hevictions, ?_, hoff rfl⟩
  rw [← hstock rfl hrequests, hentries, hevictions]

end PathCache

end TreeQuery
