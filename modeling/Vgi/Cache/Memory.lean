import Vgi.Lib.Recency
import Vgi.Cache.Entry

/-!
# The memory tier

The state of the result cache guarded by its mutex: a recency list of entries
(`lru_` and `index_`), the byte counter `total_bytes_`, the settings and the
counters, with the locked sections of the operations on it. An operation with
disk I/O between two locked sections is modelled by its sections, and by their
composition over what the disk answers (`DiskReads`).

What a run is (`MemoryTier.run`) is the sequence of its operations (`Op`), one
critical section after the other.
-/

namespace Vgi

variable {P : Type*}

/-- The counters of the diagnostics. -/
structure CacheCounters where
  hits : ℕ := 0
  misses : ℕ := 0
  inserts : ℕ := 0
  evictionsLru : ℕ := 0
  evictionsTtl : ℕ := 0
  deriving DecidableEq

/-- The configuration of the disk tier, `disk_dir_` and the fields beside it. -/
structure DiskConfig where
  dir : Bytes := []
  maxBytes : ℕ := 0
  compression : Bytes := ascii "zstd"
  compressionLevel : ℕ := 1
  deriving DecidableEq

/-- The state guarded by the mutex of the cache. -/
structure MemoryTier (P : Type*) where
  lists : Recency ResultCacheKey (ResultCacheEntry P)
  totalBytes : ℤ
  settings : CacheSettings
  disk : DiskConfig
  counters : CacheCounters

/-- What the disk tier answers to a lookup: the loaders set the key of the entry they return to the key asked for. -/
structure DiskReads (P : Type*) where
  packLookup : Bytes → ResultCacheKey → ℤ → Option (ResultCacheEntry P)
  peekDiskRefBytes : ResultCacheKey → Bytes → ℤ
  loadFromDisk : ResultCacheKey → Bytes → Option (ResultCacheEntry P)
  loadFromDiskStreaming : ResultCacheKey → Bytes → Option (ResultCacheEntry P)
  packLookup_key : ∀ {d k t e}, packLookup d k t = some e → e.key = k
  loadFromDisk_key : ∀ {k d e}, loadFromDisk k d = some e → e.key = k

/-- Where `Insert` writes the entry after its locked section. -/
structure PersistPlan where
  dir : Bytes
  diskMax : ℕ
  codec : Bytes
  level : ℕ
  usePack : Bool
  packTarget : ℕ
  deriving DecidableEq

namespace MemoryTier

variable (t : MemoryTier P) (e : ResultCacheEntry P) (k : ResultCacheKey)

/-- A cache just constructed. -/
def init : MemoryTier P where
  lists := Recency.empty
  totalBytes := 0
  settings := {}
  disk := {}
  counters := {}

/-- The cached entries, the most recently used first. -/
def entries : List (ResultCacheEntry P) := t.lists.vals

/-- The node of the key `k`. -/
def find : Option (Node (ResultCacheEntry P)) :=
  t.lists.find k

def diskEnabledLocked : Bool := t.disk.dir ≠ [] && 0 < t.disk.maxBytes

/-! ## Operations -/

/-- The loop condition of `evictToFitLocked`: over the byte cap, or over the entry-count cap. -/
def overCap (incoming : ℤ) (admitting : Bool) : Bool :=
  toInt64 t.settings.maxBytes < incoming ||
    toInt64 t.settings.maxBytes - incoming < t.totalBytes ||
    (0 < t.settings.maxEntries &&
      t.settings.maxEntries < t.lists.lru.length + if admitting then 1 else 0)

/-- Evict the last node of the list. -/
def evictBack (victim : Node (ResultCacheEntry P)) : MemoryTier P :=
  { t with
    lists := t.lists.popBack victim.val.key
    totalBytes := t.totalBytes - victim.val.totalBytes
    counters := { t.counters with evictionsLru := t.counters.evictionsLru + 1 } }

/-- The loop of `evictToFitLocked`, of at most `n` rounds. -/
def evictLoop (incoming : ℤ) (admitting : Bool) : ℕ → MemoryTier P → MemoryTier P
  | 0, t => t
  | n + 1, t =>
    match t.lists.lru.getLast? with
    | none => t
    | some victim =>
      if t.overCap incoming admitting then evictLoop incoming admitting n (t.evictBack victim) else t

/-- Evict the oldest entries while over a cap. A round evicts a node, so there are no more rounds than nodes. -/
def evictToFitLocked (incoming : ℤ) (admitting : Bool) : MemoryTier P :=
  evictLoop incoming admitting t.lists.lru.length t

/-- Unlink the node `n`, forget its key and uncount its bytes. -/
def dropNode (n : Node (ResultCacheEntry P)) : MemoryTier P :=
  { t with
    lists := t.lists.erase n.val.key n.addr
    totalBytes := t.totalBytes - n.val.totalBytes }

/-- Count the bytes of `e` and link it at the front. -/
def link : MemoryTier P :=
  { t with
    lists := t.lists.pushFront e.key e
    totalBytes := t.totalBytes + e.totalBytes }

def noteHit : MemoryTier P :=
  { t with counters := { t.counters with hits := t.counters.hits + 1 } }

def noteMiss : MemoryTier P :=
  { t with counters := { t.counters with misses := t.counters.misses + 1 } }

def noteTtl (n : ℕ) : MemoryTier P :=
  { t with counters := { t.counters with evictionsTtl := t.counters.evictionsTtl + n } }

/-- Install new settings, and evict so that a lowered cap holds at once. -/
def configure (s : CacheSettings) : MemoryTier P :=
  evictToFitLocked
    { t with
      settings := s
      disk :=
        { dir := s.diskDir
          maxBytes := s.diskMaxBytes
          compression := s.diskCompression
          compressionLevel := s.diskCompressionLevel } } 0 false

/-- The probe of the memory tier, common to `lookup` and `lookupBatch`: a stale
    entry is dropped, a fresh one moves to the front and is returned. -/
def probe (now : ℤ) : MemoryTier P × Option (ResultCacheEntry P) :=
  match t.find k with
  | none => (t, none)
  | some n =>
    if n.val.isStale now then ((t.dropNode n).noteTtl 1, none)
    else ({ t with lists := t.lists.splice k n n.val.hit }.noteHit, some n.val.hit)

/-- Adopt an entry loaded from disk, unless its key is back in memory or it is
    over a cap. The entry is returned in any case. -/
def adopt : MemoryTier P × ResultCacheEntry P :=
  if (t.find e.key).isNone && e.totalBytes ≤ toInt64 t.settings.maxEntryBytes &&
      e.totalBytes ≤ toInt64 t.settings.maxBytes then
    (((t.evictToFitLocked e.totalBytes true).link e.hit).noteHit, e.hit)
  else (t.noteHit, e)

/-- `Lookup`: probe memory, then the packed store, then the loose store, and adopt what a disk tier materialised. A
    loose entry over the per-entry cap of the configuration read with the probe is streamed, and not adopted. -/
def lookup (now nowUnix : ℤ) (disk : DiskReads P) : MemoryTier P × Option (ResultCacheEntry P) :=
  match t.probe k now with
  | (t, some e) => (t, some e)
  | (t, none) =>
    if t.diskEnabledLocked then
      match disk.packLookup t.disk.dir k nowUnix with
      | some e => (t.adopt e).map id some
      | none =>
        let refBytes := disk.peekDiskRefBytes k t.disk.dir
        if 0 ≤ refBytes && toInt64 t.settings.maxEntryBytes < refBytes then
          match disk.loadFromDiskStreaming k t.disk.dir with
          | some e => (t.noteHit, some e)
          | none => (t.noteMiss, none)
        else if 0 ≤ refBytes then
          match disk.loadFromDisk k t.disk.dir with
          | some e => (t.adopt e).map id some
          | none => (t.noteMiss, none)
        else (t.noteMiss, none)
    else (t.noteMiss, none)

/-- The probe of one key of a batch, a miss being counted at once. -/
def probeCounted (now : ℤ) : MemoryTier P × Option (ResultCacheEntry P) :=
  match t.probe k now with
  | (t, some e) => (t, some e)
  | (t, none) => (t.noteMiss, none)

/-- `LookupBatch`: the probes of all keys under one lock. -/
def lookupBatch (t : MemoryTier P) (now : ℤ) :
    List ResultCacheKey → MemoryTier P × List (Option (ResultCacheEntry P))
  | [] => (t, [])
  | k :: ks =>
    let r := (t.probeCounted k now).1.lookupBatch now ks
    (r.1, (t.probeCounted k now).2 :: r.2)

/-- `LookupForRevalidation`: a stale entry that may be revalidated. -/
def lookupForRevalidation (now : ℤ) : Option (ResultCacheEntry P) :=
  match t.find k with
  | none => none
  | some n => if n.val.isStale now && n.val.revalidatable then some n.val else none

/-- Drop the entry of the key `k`, if any. -/
def dropKey : MemoryTier P :=
  match t.find k with
  | some n => t.dropNode n
  | none => t

/-- Where `Insert` writes the entry, if the disk tier is on: small memos of an
    exchange into the packed store, anything else into the loose one. -/
def persistPlan (allowDisk : Bool) : Option PersistPlan :=
  if allowDisk && t.diskEnabledLocked then
    some
      { dir := t.disk.dir
        diskMax := t.disk.maxBytes
        codec := t.disk.compression
        level := t.disk.compressionLevel
        usePack := t.settings.pack && e.key.inputHash ≠ [] &&
          e.totalBytes < toInt64 t.settings.packMaxEntryBytes
        packTarget := t.settings.packTargetBytes }
  else none

/-- The entry fits into the memory tier. -/
def retains : Bool :=
  e.totalBytes ≤ toInt64 t.settings.maxBytes

/-- The memory tier after the locked section of an `Insert` that is not
    rejected: the entry replaces the one of its key, or only drops it. -/
def replace : MemoryTier P :=
  if t.retains e then ((t.dropKey e.key).evictToFitLocked e.totalBytes true).link e
  else t.dropKey e.key

def noteInsert (stored : Bool) : MemoryTier P :=
  if stored then { t with counters := { t.counters with inserts := t.counters.inserts + 1 } } else t

/-- The locked section of `Insert`: what it returns at last, and where it then persists the entry. -/
def insertLocked (allowDisk : Bool) : MemoryTier P × Bool × Option PersistPlan :=
  if toInt64 t.settings.maxEntryBytes < e.totalBytes then (t, false, none)
  else
    let plan := t.persistPlan e allowDisk
    let stored := t.retains e || plan.isSome
    ((t.replace e).noteInsert stored, stored, plan)

/-- The loops of `FlushCatalog` and `ReapStaleLocked`: walk the list, dropping
    the entries that satisfy `p`; the number dropped. -/
def dropWhere (p : ResultCacheEntry P → Bool) : MemoryTier P × ℕ :=
  t.lists.lru.foldl (fun s n => if p n.val then (s.1.dropNode n, s.2 + 1) else s) (t, 0)

/-- The locked section of `FlushCatalog`. -/
def flushCatalogLocked (catalog : Bytes) : MemoryTier P × ℕ :=
  t.dropWhere (·.catalogName = catalog)

/-- The locked section of `FlushAll`. -/
def flushAllLocked : MemoryTier P × ℕ :=
  ({ t with lists := { t.lists with lru := [], index := ∅ }, totalBytes := 0 }, t.lists.lru.length)

/-- Drop the stale entries that cannot be revalidated. -/
def reapStaleLocked (now : ℤ) : MemoryTier P × ℕ :=
  let r := t.dropWhere fun e => e.isStale now && !e.revalidatable
  (r.1.noteTtl r.2, r.2)

end MemoryTier

/-- The entries the disk answers with have a size. -/
structure DiskReads.Nonneg (d : DiskReads P) : Prop where
  packLookup : ∀ {dir k now e}, d.packLookup dir k now = some e → 0 ≤ e.totalBytes
  loadFromDisk : ∀ {k dir e}, d.loadFromDisk k dir = some e → 0 ≤ e.totalBytes

namespace MemoryTier

/-! ## Runs -/

/-- An operation on the memory tier. A `Lookup` that goes to disk is not one critical section: beside the whole of it
    (`lookup`) there are its two sections, `probe` and `adopt`, with anything in between. -/
inductive Op (P : Type*)
  | configure (s : CacheSettings)
  | lookup (k : ResultCacheKey) (now nowUnix : ℤ) (disk : DiskReads P)
  | probe (k : ResultCacheKey) (now : ℤ)
  | adopt (e : ResultCacheEntry P)
  | lookupBatch (ks : List ResultCacheKey) (now : ℤ)
  | lookupForRevalidation (k : ResultCacheKey) (now : ℤ)
  | insert (e : ResultCacheEntry P) (allowDisk : Bool)
  | flushCatalog (catalog : Bytes)
  | flushAll
  | reapStale (now : ℤ)

/-- The state after an operation. -/
def step (t : MemoryTier P) : Op P → MemoryTier P
  | .configure s => t.configure s
  | .lookup k now nowUnix disk => (t.lookup k now nowUnix disk).1
  | .probe k now => (t.probe k now).1
  | .adopt e => (t.adopt e).1
  | .lookupBatch ks now => (t.lookupBatch now ks).1
  | .lookupForRevalidation _ _ => t
  | .insert e allowDisk => (t.insertLocked e allowDisk).1
  | .flushCatalog catalog => (t.flushCatalogLocked catalog).1
  | .flushAll => t.flushAllLocked.1
  | .reapStale now => (t.reapStaleLocked now).1

/-- The state after a sequence of operations. -/
def run (t : MemoryTier P) (ops : List (Op P)) : MemoryTier P := ops.foldl step t

/-- Limits are at most `2 ^ 63 - 1` and the sizes of entries non-negative. -/
def Op.Sized : Op P → Prop
  | .configure s => s.maxBytes < 2 ^ 63 ∧ s.maxEntryBytes < 2 ^ 63
  | .lookup _ _ _ disk => disk.Nonneg
  | .adopt e | .insert e _ => 0 ≤ e.totalBytes
  | _ => True

end MemoryTier

end Vgi
