import TreeQuery.Proofs.Cache.Calls
import TreeQuery.Proofs.Path.Parsing

/-!
# A cache answers as the reader does

Whatever calls a cache has seen and whenever, it gives the paths that reading the texts
gives, and the same errors (`cache_transparent`).  It may only give an older object.
The paths that are put must have been read before.

All of it follows from where the entries come from (`accounted`).  A path that was read
keeps its text, so the text under which it is stored is the text that was asked for.
-/

namespace TreeQuery

/-- A path that is put has been read from a text. -/
def CacheCall.Genuine : CacheCall → Prop
  | .put shared => ∃ text, Path.parse text = .ok shared.path
  | _ => True

namespace PathCache

variable {config : CacheConfig} {events : List CacheEvent} {event : CacheEvent}
  {cache : PathCache} {text : String} {entry : CacheEntry} {shared : SharedPath} {now id : Nat}

/-! ## Entries -/

/-- What is stored is what reading its text gives. -/
theorem parse_of_stored (hgenuine : event.call.Genuine) (h : cache.stored? event = some shared) :
    Path.parse shared.path.text = .ok shared.path := by
  obtain ⟨now, call⟩ := event
  have hread : ∃ text, Path.parse text = .ok shared.path := by
    cases call with
    | get text => cases h
    | getOrParse text id =>
        simp only [stored?] at h
        split at h
        · next path _ hparse =>
          rw [← Option.some.inj h]
          exact ⟨text, hparse⟩
        · cases h
    | put other =>
        rw [← Option.some.inj h]
        exact hgenuine
    | clear => cases h
    | cleanup => cases h
  obtain ⟨text, hparse⟩ := hread
  rwa [(Path.parse_eq_ok.mp hparse).1]

/-- Every entry is what reading its text gives. -/
theorem parse_of_mem (hgenuine : ∀ event ∈ events, event.call.Genuine)
    (h : (text, entry) ∈ (run config events).entries) :
    Path.parse text = .ok entry.shared.path := by
  have haccounted := accounted h
  obtain ⟨earlier, event, later, hlast, hstored, -⟩ := haccounted.kept
  have hevent : event ∈ events := by simp [hlast.split]
  rw [← haccounted.text_eq]
  exact parse_of_stored (hgenuine event hevent) hstored

/-! ## Answers -/

theorem age_of_not_expired (h : entry.isExpired config now = false) :
    ∀ lifetime, config.lifetime = some lifetime → now ≤ entry.created + lifetime := by
  intro lifetime hlifetime
  simp [CacheEntry.isExpired, hlifetime] at h
  omega

/-- A text without an entry loses nothing when it is asked for. -/
theorem get_of_notMem (h : text ∉ cache.texts) (now : Nat) :
    (cache.get now text).2 = none ∧ (cache.get now text).1.entries = cache.entries := by
  have hfind : cache.find? text = none := by
    rw [find?, List.lookup_eq_none_iff]
    intro item hitem
    have hne : item.1 ≠ text := fun heq => h (heq ▸ List.mem_map_of_mem hitem)
    simpa using hne.symm
  cases henabled : cache.config.enabled with
  | false => simp [get, henabled]
  | true => simp [get, henabled, hfind]

theorem getOrParse_of_some (h : (cache.get now text).2 = some shared) :
    cache.getOrParse now id text = ((cache.get now text).1, .ok shared) := by
  rw [getOrParse]
  generalize cache.get now text = outcome at h
  obtain ⟨after, answer⟩ := outcome
  cases h
  rfl

theorem getOrParse_of_none (h : (cache.get now text).2 = none) :
    cache.getOrParse now id text = match Path.parse text with
      | .ok path => ((cache.get now text).1.put now ⟨id, path⟩, .ok ⟨id, path⟩)
      | .error error => ((cache.get now text).1, .error error) := by
  rw [getOrParse]
  generalize cache.get now text = outcome at h
  obtain ⟨after, answer⟩ := outcome
  cases h
  rfl

/-- A path that is found after a run is what reading the text gives, and it is not too
old. -/
theorem found_of_run (hgenuine : ∀ event ∈ events, event.call.Genuine)
    (h : ((run config events).get now text).2 = some shared) :
    Path.parse text = .ok shared.path ∧ ∃ time, Kept config events text shared time
      ∧ ∀ lifetime, config.lifetime = some lifetime → now ≤ time + lifetime := by
  obtain ⟨entry, hmem, rfl, hexpired⟩ := entry_of_get (nodup_texts_run config events) h
  rw [config_run] at hexpired
  exact ⟨parse_of_mem hgenuine hmem, entry.created, (accounted hmem).kept,
    age_of_not_expired hexpired⟩

/-- A text that is no path finds nothing, and asking for it adds nothing. -/
theorem getOrParse_of_parse_error (hgenuine : ∀ event ∈ events, event.call.Genuine)
    {error : SyntaxError} (h : Path.parse text = .error error) (now id : Nat) :
    ((run config events).getOrParse now id text).1.entries = (run config events).entries
      ∧ ((run config events).getOrParse now id text).2 = .error error := by
  have hnot : text ∉ (run config events).texts := by
    intro hmem
    obtain ⟨⟨key, entry⟩, hentry, rfl⟩ := List.mem_map.mp hmem
    rw [parse_of_mem hgenuine hentry] at h
    cases h
  obtain ⟨hnone, hentries⟩ := get_of_notMem hnot now
  rw [getOrParse_of_none hnone, h]
  exact ⟨hentries, rfl⟩

/-- A cache is transparent: after any calls at any times, with paths put that have been
read before, each entry is kept under the text of its path and is what reading that
text gives.

* Asking for a text and reading it if need be answers as reading it does.  The path is
  the one that was found, if one was, or it is new.
* A path that is found is what reading the text gives.  It is the last one that was
  stored under the text, and that is not longer ago than the lifetime.
* A text that is no path adds no entry.
* A cache that is switched off stores nothing and finds nothing. -/
theorem cache_transparent (config : CacheConfig) {events : List CacheEvent}
    (hgenuine : ∀ event ∈ events, event.call.Genuine) :
    (run config events).texts.Nodup
      ∧ (∀ text entry, (text, entry) ∈ (run config events).entries →
          entry.shared.path.text = text ∧ Path.parse text = .ok entry.shared.path)
      ∧ (∀ now id text,
          ((run config events).getOrParse now id text).2.map SharedPath.path = Path.parse text
          ∧ ∀ shared, ((run config events).getOrParse now id text).2 = .ok shared →
              ((run config events).get now text).2 = some shared
                ∨ ((run config events).get now text).2 = none ∧ shared.id = id)
      ∧ (∀ now text shared, ((run config events).get now text).2 = some shared →
          Path.parse text = .ok shared.path ∧ ∃ time, Kept config events text shared time
            ∧ ∀ lifetime, config.lifetime = some lifetime → now ≤ time + lifetime)
      ∧ (∀ now id text error, Path.parse text = .error error →
          ((run config events).getOrParse now id text).1.entries = (run config events).entries)
      ∧ (config.enabled = false → (run config events).entries = []
          ∧ (∀ now text, (run config events).get now text = (run config events, none))
          ∧ ∀ now shared, (run config events).put now shared = run config events) := by
  refine ⟨nodup_texts_run config events, fun text entry hmem => ?_, fun now id text => ?_,
    fun now text shared h => found_of_run hgenuine h, fun now id text error h => ?_,
    fun hdisabled => ?_⟩
  · exact ⟨(accounted hmem).text_eq, parse_of_mem hgenuine hmem⟩
  · cases hget : ((run config events).get now text).2 with
    | some shared =>
        obtain ⟨hparse, -⟩ := found_of_run hgenuine hget
        rw [getOrParse_of_some hget, hparse]
        exact ⟨rfl, fun other hother => .inl (by rw [Except.ok.inj hother])⟩
    | none =>
        rw [getOrParse_of_none hget]
        cases Path.parse text with
        | ok path => exact ⟨rfl, fun other hother => .inr ⟨rfl, by rw [← Except.ok.inj hother]⟩⟩
        | error error => exact ⟨rfl, nofun⟩
  · exact (getOrParse_of_parse_error hgenuine h now id).1
  · have hconfig : (run config events).config.enabled = false := by rw [config_run, hdisabled]
    refine ⟨entries_run_of_disabled hdisabled events, fun now text => ?_, fun now shared => ?_⟩
    · simp [get, hconfig]
    · exact put_of_disabled hconfig now shared

/-- The path that was put is found until its lifetime of ten is over.  The text in
between is no path and is not kept. -/
theorem cache_transparent_for_a_while :
    let config : CacheConfig := ⟨2, true, some 10⟩
    let shared : SharedPath := ⟨7, ⟨"a", [⟨.child "a", 1⟩]⟩⟩
    let events : List CacheEvent :=
      [⟨1, .put shared⟩, ⟨3, .getOrParse "b[" 8⟩, ⟨5, .getOrParse "b" 9⟩]
    (∀ event ∈ events, event.call.Genuine)
      ∧ (run config events).texts = ["a", "b"]
      ∧ Path.parse "a" = .ok shared.path
      ∧ ((run config events).get 11 "a").2 = some shared
      ∧ (∃ time, Kept config events "a" shared time ∧ 11 ≤ time + 10)
      ∧ ((run config events).get 12 "a").2 = none := by
  intro config shared events
  have hparse : Path.parse "a" = .ok shared.path := by cbv
  have hgenuine : ∀ event ∈ events, event.call.Genuine := by
    simp only [events, List.forall_mem_cons, List.not_mem_nil, false_implies, implies_true]
    exact ⟨⟨"a", hparse⟩, trivial, trivial, trivial⟩
  have hget : ((run config events).get 11 "a").2 = some shared := by cbv
  obtain ⟨-, -, -, hfound, -⟩ := cache_transparent config hgenuine
  obtain ⟨hread, time, hkept, hage⟩ := hfound 11 "a" shared hget
  exact ⟨hgenuine, by cbv, hread, hget, ⟨time, hkept, hage 10 rfl⟩, by cbv⟩

end PathCache

end TreeQuery
