import TreeQuery.Number.Binary64
import TreeQuery.Path.Reader

/-!
# The cache of paths

A path that was read once is kept under its text, so that the next request for
the text gets the same path.  A *shared path* has a number that tells it from
other paths read from the same text.

The cache counts requests that found a path and those that did not.  It may bound
the age of its entries, and an entry that is too old is dropped when it is asked
for.  When the cache is full, the entries that were used least recently make
room: one fifth of the bound, and at least one.  This is done before a path is
stored, also when its text is there already.  Texts that are no paths are not
kept.  A cache that is switched off keeps and counts nothing.

Time is a number that is given to every operation, in ticks of any length.
-/

namespace TreeQuery

/-- A path with the number that identifies it. -/
structure SharedPath where
  /-- The number. -/
  id : Nat
  /-- The path. -/
  path : Path
deriving Repr

/-- How a cache works. -/
structure CacheConfig where
  /-- The number of entries at which the cache is full. -/
  maxEntries : Nat
  /-- The cache is switched on. -/
  enabled : Bool
  /-- The greatest age of an entry in ticks, if there is one. -/
  lifetime : Option Nat
deriving Repr

/-- A path in the cache. -/
structure CacheEntry where
  /-- The path. -/
  shared : SharedPath
  /-- When it was stored. -/
  created : Nat
  /-- When it was last stored or found. -/
  accessed : Nat
deriving Repr

/-- A cache of paths. -/
structure PathCache where
  /-- How it works. -/
  config : CacheConfig
  /-- The entries with their texts, of which no two are equal. -/
  entries : List (String × CacheEntry) := []
  /-- How many requests found a path. -/
  hits : Nat := 0
  /-- How many requests found none. -/
  misses : Nat := 0
  /-- How many entries made room for others. -/
  evictions : Nat := 0
deriving Repr

namespace CacheEntry

/-- The entry is older than the cache allows. -/
def isExpired (entry : CacheEntry) (config : CacheConfig) (now : Nat) : Bool :=
  config.lifetime.any fun lifetime => lifetime < now - entry.created

end CacheEntry

namespace PathCache

/-- The entry of a text. -/
def find? (cache : PathCache) (text : String) : Option CacheEntry := cache.entries.lookup text

/-- Drop the entry of a text. -/
def drop (cache : PathCache) (text : String) : PathCache :=
  { cache with entries := cache.entries.filter fun (key, _) => key ≠ text }

/-- Keep an entry for a text in place of the one it has. -/
def keep (cache : PathCache) (text : String) (entry : CacheEntry) : PathCache :=
  { cache with entries := (cache.drop text).entries ++ [(text, entry)] }

/-- The path of a text, if the cache has it. -/
def get (cache : PathCache) (now : Nat) (text : String) : PathCache × Option SharedPath :=
  if !cache.config.enabled then (cache, none)
  else
    match cache.find? text with
    | none => ({ cache with misses := cache.misses + 1 }, none)
    | some entry =>
        if entry.isExpired cache.config now then
          ({ cache.drop text with misses := cache.misses + 1 }, none)
        else
          ({ cache.keep text { entry with accessed := now } with hits := cache.hits + 1 },
            some entry.shared)

/-- The number of entries that make room at once. -/
def evictionSize (config : CacheConfig) : Nat := max 1 (config.maxEntries / 5)

/-- The texts of the entries that make room: those last used the longest ago. -/
def victims (cache : PathCache) : List String :=
  let byAge := cache.entries.mergeSort fun (_, a) (_, b) => a.accessed ≤ b.accessed
  (byAge.take (evictionSize cache.config)).map Prod.fst

/-- Make room. -/
def evict (cache : PathCache) : PathCache :=
  let gone := cache.victims
  { cache with
    entries := cache.entries.filter fun (key, _) => key ∉ gone
    evictions := cache.evictions + gone.length }

/-- Store a path under its text. -/
def put (cache : PathCache) (now : Nat) (shared : SharedPath) : PathCache :=
  if !cache.config.enabled then cache
  else
    let roomy := if cache.config.maxEntries ≤ cache.entries.length then cache.evict else cache
    roomy.keep shared.path.text ⟨shared, now, now⟩

/-- The path of a text, which is read and stored if the cache does not have it.  A
path that is read gets the given number.  One time stands for the look-up and for the
store, though a clock may go on while the path is read. -/
def getOrParse (cache : PathCache) (now id : Nat) (text : String) :
    PathCache × Except SyntaxError SharedPath :=
  match cache.get now text with
  | (cache, some shared) => (cache, .ok shared)
  | (cache, none) =>
      match Path.parse text with
      | .ok path => (cache.put now ⟨id, path⟩, .ok ⟨id, path⟩)
      | .error error => (cache, .error error)

/-- Drop all entries. -/
def clear (cache : PathCache) : PathCache := { cache with entries := [] }

/-- Drop the entries that are too old. -/
def cleanup (cache : PathCache) (now : Nat) : PathCache :=
  { cache with entries := cache.entries.filter fun (_, entry) => !entry.isExpired cache.config now }

/-- The share of requests that found a path, in percent. -/
def hitRate (cache : PathCache) : Binary64 :=
  if cache.hits + cache.misses = 0 then .zero
  else ((Binary64.ofNat cache.hits).div (.ofNat (cache.hits + cache.misses))).mul (.ofNat 100)

end PathCache

/-- A cache of a thousand entries for one hour of nanoseconds. -/
def CacheConfig.standard : CacheConfig := ⟨1000, true, some (3600 * 1000000000)⟩

end TreeQuery
