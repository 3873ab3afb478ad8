import Vgi.Cache.DiskTier
import Vgi.Lib.Threads

/-!
# Concurrent operations

`Insert`, `Lookup`, `FlushCatalog`, `FlushAll` and the slide of a revalidated entry, as threads over the two tiers of
the cache. Each locked section and each access to the disk is one step:

* an `Insert` replaces the entry of its key in memory, and then persists it;
* a `Lookup` probes memory, then the packed store, then the loose one, and adopts into memory what it loaded;
* a flush clears memory, and then removes the files;
* a slide probes memory for a stale entry, asks the worker, and on its answer inserts a copy of the entry with a new
  lifetime.

Between two steps of a thread others may take any of theirs. Nothing of the cache tells a thread that a flush, or
another `Insert`, happened in between.

Each payload carries the `Insert` it comes from (`Origin`). The state records, beside what the program has, what
happened so far (`events`), what was published, and what the flushes so far were to make unreachable.
-/

namespace Vgi

/-- The `Insert` a payload comes from: its place among the events, and what it inserted. -/
structure Origin where
  seq : ℕ
  key : ResultCacheKey
  catalogName : Bytes
  deriving DecidableEq

/-- What a flush is asked to remove. -/
inductive FlushOp
  | catalog (name identityScope : Bytes)
  | all

/-- The flush is for the catalog and the identity of the `Insert`. -/
def FlushOp.covers : FlushOp → Origin → Bool
  | .catalog name identityScope, o => o.catalogName = name && o.key.identityScope = identityScope
  | .all, _ => true

/-- What happened to the entries of a key. -/
inductive CacheEvent
  /-- An `Insert` replaced the entry of its key. -/
  | accept (o : Origin)
  /-- A flush cleared memory. -/
  | clear (f : FlushOp)

/-- A result to be inserted. Its key has an identity: without one nothing is cached. -/
structure NewResult (P : Type*) where
  entry : ResultCacheEntry P
  allowDisk : Bool
  identified : entry.key.identityScope ≠ []
  nonneg : 0 ≤ entry.totalBytes

section

variable {P : Type*} (e : ResultCacheEntry P)

/-! ## Sliding -/

/-- The lifetime of an entry, in whole seconds. -/
def ResultCacheEntry.lifetime : ℤ :=
  max ((e.expiresAt - e.storedAt).tdiv second) 0

/-- The copy of an entry with a new lifetime, and new validators if there are any. -/
def ResultCacheEntry.slid (cc : CacheControl) (ttl now : ℤ) : ResultCacheEntry P :=
  { e with
    storedAt := now
    expiresAt := if e.neverExpires then e.expiresAt else now + (if 0 < ttl then ttl else 0) * second
    etag := if cc.etag ≠ [] then cc.etag else e.etag
    lastModified := if cc.lastModified ≠ [] then cc.lastModified else e.lastModified }

/-- `MaybeSlideRevalidatedEntry`: the entry it inserts, and whether this may go to disk. -/
def maybeSlideRevalidatedEntry (cc : CacheControl) (now : ℤ) : ResultCacheEntry P × Bool :=
  let ttl := cc.ttlSeconds.getD 0
  (e.slid cc (if ttl ≤ 0 ∧ cc.expiresRfc3339 = [] ∧ e.neverExpires = false then e.lifetime else ttl)
    now, true)

/-- `SlideRevalidatedExchangeEntry`. Unlike above, an expiry date without a lifetime does not count, the lifetime is
    bounded, and an entry that is stale at once stays in memory. -/
def slideRevalidatedExchangeEntry (cc : CacheControl) (now : ℤ)
    (allowDisk : Bool) : ResultCacheEntry P × Bool :=
  let ttl := cc.ttlSeconds.getD 0
  let fresh := e.slid cc
    (min (if ttl ≤ 0 ∧ e.neverExpires = false then e.lifetime else ttl) maxTtlSeconds) now
  (fresh, allowDisk && (e.neverExpires || fresh.storedAt < fresh.expiresAt))

/-! ## The state -/

/-- The two tiers, and what happened so far. -/
structure CacheState (P : Type*) where
  tier : MemoryTier (Origin × P)
  disk : DiskTier (Origin × P)
  events : List CacheEvent := []
  /-- What was put into memory or onto disk. -/
  published : List Origin := []
  /-- What was published before a flush began that has cleared memory since. -/
  cleared : List Origin := []
  /-- What was published before a flush began that has removed its files since. -/
  removed : List Origin := []
  /-- What was published before a flush began that has returned since. -/
  dead : List Origin := []
  /-- What was accepted before a flush cleared memory. -/
  flushed : List Origin := []
  /-- What was accepted before a flush cleared memory that has returned since. -/
  gone : List Origin := []
  /-- What was written to disk: the store, the place, and whose payload. -/
  written : List (Bool × Place × Origin) := []

variable (g : CacheState P)

/-- What was accepted so far. -/
def CacheState.accepted : List Origin :=
  g.events.filterMap fun
    | .accept o => some o
    | .clear _ => none

/-- Where a thread is. -/
inductive CachePc (P : Type*)
  /-- `Insert`, before its locked section. -/
  | insert (r : NewResult P)
  /-- `Insert` of a slide, before its locked section. -/
  | reinsert (e : ResultCacheEntry (Origin × P)) (allowDisk : Bool)
  /-- `Insert`, before the entry is written to disk. -/
  | persist (e : ResultCacheEntry (Origin × P)) (plan : PersistPlan)
  /-- `Lookup`, before memory is probed. -/
  | probe (k : ResultCacheKey)
  /-- Before the packed store is probed. -/
  | pack (k : ResultCacheKey) (dir : Bytes) (maxEntryBytes : ℕ)
  /-- Before the size of the loose entry is read. -/
  | peek (k : ResultCacheKey) (dir : Bytes) (maxEntryBytes : ℕ)
  /-- Before the loose entry is loaded. -/
  | load (k : ResultCacheKey) (dir : Bytes) (streaming : Bool)
  /-- Before the entry loaded is adopted. -/
  | adopt (e : ResultCacheEntry (Origin × P))
  | answered (e : Option (ResultCacheEntry (Origin × P)))
  /-- A flush, before memory is cleared. -/
  | clear (f : FlushOp)
  /-- Before the files are removed. -/
  | remove (f : FlushOp) (dir : Bytes)
  /-- `LookupForRevalidation`. -/
  | revalidate (k : ResultCacheKey) (exchange allowDisk : Bool)
  /-- Before the worker answers. -/
  | slide (e : ResultCacheEntry (Origin × P)) (exchange allowDisk : Bool)
  | done

/-- A thread, and what was so when it started. -/
structure CacheThread (P : Type*) where
  pc : CachePc P
  /-- Of a lookup: what was published before a flush began that had returned when the lookup started. -/
  dead : List Origin := []
  /-- Of a flush: what it covers of what was published when it began. -/
  victims : List Origin := []
  /-- Of a flush: what it covers of what was accepted when it cleared memory. -/
  doomed : List Origin := []
  /-- The number of events when the entry was accepted, or probed for a slide. -/
  since : ℕ := 0

/-- The operations. -/
inductive CacheOp (P : Type*)
  | insert (r : NewResult P)
  | lookup (k : ResultCacheKey)
  | flush (f : FlushOp)
  | slide (k : ResultCacheKey) (exchange allowDisk : Bool)

/-- What the world answers to a step: the clocks, the size of the serialised result, what the worker says, and whether
    the access to the disk, or the request to the worker, succeeds. -/
structure CacheInput where
  now : ℤ := 0
  nowUnix : ℤ := 0
  size : BlobSize := ⟨0, 0⟩
  cc : CacheControl := {}
  ok : Bool := true

/-! ## The steps -/

/-- The entry of a new result, as it is accepted next. -/
def CacheState.stamped (e : ResultCacheEntry P) : ResultCacheEntry (Origin × P) :=
  { e with streams := (⟨g.events.length, e.key, e.catalogName⟩, e.streams) }

/-- Where `Insert` goes on after its locked section. -/
def CachePc.persisting (e : ResultCacheEntry (Origin × P)) : Option PersistPlan → CachePc P
  | some plan => .persist e plan
  | none => .done

/-- The locked section of a flush. -/
def MemoryTier.clear {P : Type*} (t : MemoryTier P) : FlushOp → MemoryTier P
  | .catalog name _ => (t.flushCatalogLocked name).1
  | .all => t.flushAllLocked.1

/-- Whether the flush has files to remove. -/
def FlushOp.removes : FlushOp → MemoryTier P → Bool
  | .catalog _ identityScope, t => t.diskEnabledLocked && identityScope ≠ []
  | .all, t => t.diskEnabledLocked

/-- The removal of the files. -/
def DiskTier.remove {P : Type*} (dg : Digests) (d : DiskTier P) (dir : Bytes) : FlushOp → DiskTier P
  | .catalog _ identityScope => d.removeShard dir (dg.identityShard identityScope)
  | .all => d.removeDirectory dir

/-- An `Insert` replaces the entry of its key. -/
def CacheState.accept (e : ResultCacheEntry (Origin × P)) (allowDisk : Bool) : CacheState P :=
  { g with
    tier := (g.tier.insertLocked e allowDisk).1
    events := g.events ++ [.accept e.streams.1]
    published := if g.tier.retains e then e.streams.1 :: g.published else g.published }

/-- An entry is written to disk. -/
def CacheState.persist (dg : Digests) (plan : PersistPlan)
    (e : ResultCacheEntry (Origin × P)) (size : BlobSize) (nowUnix : ℤ) : CacheState P :=
  { g with
    disk := g.disk.persist dg plan e size nowUnix
    published := e.streams.1 :: g.published
    written := (plan.usePack, dg.place plan.dir e.key, e.streams.1) :: g.written }

/-- A flush clears memory. -/
def CacheState.clear (f : FlushOp) (victims doomed : List Origin) : CacheState P :=
  { g with
    tier := g.tier.clear f
    events := g.events ++ [.clear f]
    cleared := victims ++ g.cleared
    flushed := doomed ++ g.flushed }

/-- A flush returns. -/
def CacheState.flushReturns (victims doomed : List Origin) : CacheState P :=
  { g with
    removed := victims ++ g.removed
    dead := victims ++ g.dead
    gone := doomed ++ g.gone }

/-- A step of a thread. -/
def cacheStep (dg : Digests) (g : CacheState P) (l : CacheThread P) (x : CacheInput) :
    Option (CacheState P × CacheThread P) :=
  match l.pc with
  | .insert r =>
    let e := g.stamped r.entry
    -- too large for the memory tier
    if toInt64 g.tier.settings.maxEntryBytes < e.totalBytes then some (g, { l with pc := .done })
    else
      some (g.accept e r.allowDisk,
        { l with
          pc := .persisting e (g.tier.insertLocked e r.allowDisk).2.2
          since := g.events.length + 1 })
  | .reinsert e allowDisk =>
    let t := g.tier.insertLocked e allowDisk
    some ({ g with tier := t.1 }, { l with pc := .persisting e t.2.2 })
  | .persist e plan =>
    if x.ok && x.size.blob ≤ plan.diskMax then
      some (g.persist dg plan e x.size x.nowUnix, { l with pc := .done })
    else some (g, { l with pc := .done })
  | .probe k =>
    let t := g.tier.probe k x.now
    match t.2 with
    | some e => some ({ g with tier := t.1 }, { l with pc := .answered (some e) })
    | none =>
      if t.1.diskEnabledLocked then
        some ({ g with tier := t.1 },
          { l with pc := .pack k t.1.disk.dir t.1.settings.maxEntryBytes })
      else some ({ g with tier := t.1.noteMiss }, { l with pc := .answered none })
  | .pack k dir maxEntryBytes =>
    match g.disk.packLookup dg dir k x.now x.nowUnix, x.ok with
    | some e, true => some (g, { l with pc := .adopt e })
    | _, _ => some (g, { l with pc := .peek k dir maxEntryBytes })
  | .peek k dir maxEntryBytes =>
    let refBytes := if x.ok then g.disk.peekDiskRefBytes dg k dir else -1
    if 0 ≤ refBytes then
      some (g, { l with pc := .load k dir (toInt64 maxEntryBytes < refBytes) })
    else some ({ g with tier := g.tier.noteMiss }, { l with pc := .answered none })
  | .load k dir streaming =>
    if streaming then
      match g.disk.loadFromDiskStreaming dg k dir x.now x.nowUnix, x.ok with
      | some e, true =>
        some ({ g with tier := g.tier.noteHit }, { l with pc := .answered (some e) })
      | _, _ => some ({ g with tier := g.tier.noteMiss }, { l with pc := .answered none })
    else
      match g.disk.loadFromDisk dg k dir x.now x.nowUnix, x.ok with
      | some e, true => some (g, { l with pc := .adopt e })
      | _, _ => some ({ g with tier := g.tier.noteMiss }, { l with pc := .answered none })
  | .adopt e =>
    let t := g.tier.adopt e
    some ({ g with tier := t.1 }, { l with pc := .answered (some t.2) })
  | .clear f =>
    let doomed := g.accepted.filter f.covers
    if f.removes g.tier then
      some (g.clear f l.victims doomed, { l with pc := .remove f g.tier.disk.dir, doomed := doomed })
    else
      some ((g.clear f l.victims doomed).flushReturns l.victims doomed,
        { l with pc := .done, doomed := doomed })
  | .remove f dir =>
    some ({ g with disk := g.disk.remove dg dir f }.flushReturns l.victims l.doomed,
      { l with pc := .done })
  | .revalidate k exchange allowDisk =>
    match g.tier.lookupForRevalidation k x.now with
    | some e => some (g, { l with pc := .slide e exchange allowDisk, since := g.events.length })
    | none => some (g, { l with pc := .done })
  | .slide e exchange allowDisk =>
    -- anything but "not modified" ends in an ordinary `Insert`, if any
    if x.ok then
      let fresh := if exchange then slideRevalidatedExchangeEntry e x.cc x.now allowDisk
        else maybeSlideRevalidatedEntry e x.cc x.now
      some (g, { l with pc := .reinsert fresh.1 fresh.2 })
    else some (g, { l with pc := .done })
  | .answered _ | .done => none

/-- The start of an operation. -/
def cacheSpawn : CacheOp P → CacheThread P
  | .insert r => { pc := .insert r }
  | .lookup k => { pc := .probe k, dead := g.dead }
  | .flush f => { pc := .clear f, victims := g.published.filter f.covers }
  | .slide k exchange allowDisk => { pc := .revalidate k exchange allowDisk }

/-- The operations on the cache, as threads. -/
def cacheThreads (dg : Digests) :
    Threads (CacheState P) (CacheThread P) (CacheOp P) CacheInput where
  spawn g _ op := some (g, cacheSpawn g op)
  step g _ l x := cacheStep dg g l x

/-- The cache with these settings, empty. -/
def CacheState.init (s : CacheSettings) : CacheState P where
  tier := MemoryTier.init.configure s
  disk := .empty

end

/-! ## Runs -/

/-- The result of a call, which does not expire, or is stale at once and may be revalidated. -/
def newResult (arguments : String) (neverExpires : Bool) : NewResult Unit where
  entry :=
    { key := resultKey arguments
      streams := ()
      totalBytes := 1
      neverExpires := neverExpires
      revalidatable := !neverExpires }
  allowDisk := true
  identified := by simp [resultKey, ascii]
  nonneg := zero_le_one

/-- What the threads do, in the order in which they do it. -/
abbrev CacheActs (P : Type*) := List (Threads.Act (CacheOp P) CacheInput)

/-- Steps of one thread, with nothing special to them. -/
def steps (i n : ℕ) : CacheActs Unit :=
  List.replicate n (.step i {})

/-- A run, from a cache with room for one entry. -/
abbrev ran (as : CacheActs Unit) := (cacheThreads argumentDigests).machine.run ⟨CacheState.init oneEntry, []⟩ as

end Vgi
