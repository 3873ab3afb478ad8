import Vgi.Cache.MemoryHolds

/-!
# The disk tier

What the disk tier keeps for a key: a record in the packed store, for small
results of exchanges, and one in the loose store (a ref and the object it names),
for all others. Both are found under the digests of the identity and of the key
(`Place`), so both may have a record for one key.

Here a record is read and written as a whole; how it is laid out in files is
modelled elsewhere. Expiry on disk is in wall-clock seconds, that of an entry in
memory in nanoseconds of the monotonic clock.
-/

namespace Vgi

/-- The digests that name directories and files. -/
structure Digests where
  identityShard : Bytes → Bytes
  fingerprint : ResultCacheKey → Bytes

/-- Where the record of a key is: the cache directory, the shard of the identity and the fingerprint of the key. -/
@[ext]
structure Place where
  dir : Bytes
  shard : Bytes
  keyfp : Bytes
  deriving DecidableEq

def Digests.place (dg : Digests) (dir : Bytes) (k : ResultCacheKey) : Place :=
  ⟨dir, dg.identityShard k.identityScope, dg.fingerprint k⟩

/-- The size of the serialised result, and of its batches in it. -/
structure BlobSize where
  blob : ℕ
  stored : ℕ

variable {P : Type*}

/-! ## Records -/

/-- What is stored of an entry. -/
structure DiskRecord (P : Type*) where
  streams : P
  storedBytes : ℕ
  logicalBytes : ℤ
  rows : ℤ
  expiresUnix : ℤ
  scope : Bytes
  etag : Bytes
  lastModified : Bytes
  catalogName : Bytes

/-- `ComputeExpiresUnix`: whole seconds, the rest of the lifetime is cut off. -/
def computeExpiresUnix (e : ResultCacheEntry P) (nowUnix : ℤ) : ℤ :=
  if e.neverExpires then int64Max else nowUnix + (e.expiresAt - e.storedAt).tdiv second

/-- The record of an entry. -/
def ResultCacheEntry.record (e : ResultCacheEntry P) (size : BlobSize) (nowUnix : ℤ) :
    DiskRecord P where
  streams := e.streams
  storedBytes := size.stored
  logicalBytes := e.totalBytes
  rows := e.rows
  expiresUnix := computeExpiresUnix e nowUnix
  scope := e.scope
  etag := e.etag
  lastModified := e.lastModified
  catalogName := e.catalogName

namespace DiskRecord

variable (r : DiskRecord P)

/-- The record is past its expiry. -/
def isStale (nowUnix : ℤ) : Bool := r.expiresUnix ≠ int64Max && r.expiresUnix ≤ nowUnix

/-- The entry read back for the key `k`. -/
def load (k : ResultCacheKey) (now nowUnix : ℤ) : ResultCacheEntry P where
  key := k
  streams := r.streams
  totalBytes := r.storedBytes
  rows := r.rows
  storedAt := now
  expiresAt := if r.expiresUnix = int64Max then 0 else now + (r.expiresUnix - nowUnix) * second
  neverExpires := r.expiresUnix = int64Max
  scope := r.scope
  etag := r.etag
  lastModified := r.lastModified
  catalogName := r.catalogName

/-- The entry read back, if it is not stale. -/
def read (k : ResultCacheKey) (now nowUnix : ℤ) : Option (ResultCacheEntry P) :=
  if r.isStale nowUnix then none else some (r.load k now nowUnix)

variable {r}

theorem read_eq_some {k : ResultCacheKey} {now nowUnix : ℤ} {e : ResultCacheEntry P}
    (h : r.read k now nowUnix = some e) : r.isStale nowUnix = false ∧ e = r.load k now nowUnix := by
  rw [DiskRecord.read] at h
  split at h
  · cases h
  · cases h
    exact ⟨by simpa using ‹¬r.isStale nowUnix = true›, rfl⟩

end DiskRecord

/-! ## The two stores -/

/-- The records of the packed and of the loose store. -/
structure DiskTier (P : Type*) where
  packed : Place → Option (DiskRecord P)
  loose : Place → Option (DiskRecord P)

namespace DiskTier

variable (dg : Digests) (d : DiskTier P)

/-- Nothing is stored. -/
def empty : DiskTier P := ⟨fun _ => none, fun _ => none⟩

/-- The store of a plan: the packed or the loose one. -/
def store (usePack : Bool) : Place → Option (DiskRecord P) := if usePack then d.packed else d.loose

/-- Write a record into one of the stores. -/
def write (usePack : Bool) (p : Place) (r : DiskRecord P) : DiskTier P :=
  if usePack then { d with packed := Function.update d.packed p (some r) }
  else { d with loose := Function.update d.loose p (some r) }

/-- The part of `Insert` after its locked section: an entry over the cap of the disk tier is not written. -/
def persist (plan : PersistPlan) (e : ResultCacheEntry P) (size : BlobSize) (nowUnix : ℤ) : DiskTier P :=
  if size.blob ≤ plan.diskMax then
    d.write plan.usePack (dg.place plan.dir e.key) (e.record size nowUnix)
  else d

/-- `PackStore::Lookup`. -/
def packLookup (dir : Bytes) (k : ResultCacheKey) (now nowUnix : ℤ) : Option (ResultCacheEntry P) :=
  (d.packed (dg.place dir k)).bind (·.read k now nowUnix)

/-- `PeekDiskRefBytes`. -/
def peekDiskRefBytes (k : ResultCacheKey) (dir : Bytes) : ℤ :=
  (d.loose (dg.place dir k)).elim (-1) (·.logicalBytes)

/-- `LoadFromDisk`. -/
def loadFromDisk (k : ResultCacheKey) (dir : Bytes) (now nowUnix : ℤ) : Option (ResultCacheEntry P) :=
  (d.loose (dg.place dir k)).bind (·.read k now nowUnix)

/-- `LoadFromDiskStreaming`: the batches stay in their file. -/
def loadFromDiskStreaming (k : ResultCacheKey) (dir : Bytes) (now nowUnix : ℤ) : Option (ResultCacheEntry P) :=
  (d.loadFromDisk dg k dir now nowUnix).map fun e => { e with diskBacked := true }

/-- Remove the subtree of a shard, after its pack index was dropped. -/
def removeShard (dir shard : Bytes) : DiskTier P where
  packed p := if p.dir = dir ∧ p.shard = shard then none else d.packed p
  loose p := if p.dir = dir ∧ p.shard = shard then none else d.loose p

/-- Remove the cache directory, after the pack indexes were dropped. -/
def removeDirectory (dir : Bytes) : DiskTier P where
  packed p := if p.dir = dir then none else d.packed p
  loose p := if p.dir = dir then none else d.loose p

/-! ## What is written and read -/

variable {dg d}

theorem store_write (usePack usePack' : Bool) (p p' : Place) (r : DiskRecord P) :
    (d.write usePack p r).store usePack' p' = if usePack' = usePack ∧ p' = p then some r else d.store usePack' p' := by
  cases usePack <;> cases usePack' <;> simp [write, store, Function.update_apply]

variable {nowUnix : ℤ} {e : ResultCacheEntry P}

/-- `persist` writes one record, or none. -/
theorem store_persist {plan : PersistPlan} {size : BlobSize} {usePack : Bool} {p : Place} {r : DiskRecord P}
    (h : (d.persist dg plan e size nowUnix).store usePack p = some r) :
    (usePack = plan.usePack ∧ p = dg.place plan.dir e.key ∧ r = e.record size nowUnix) ∨
      (¬(size.blob ≤ plan.diskMax ∧ usePack = plan.usePack ∧ p = dg.place plan.dir e.key) ∧
        d.store usePack p = some r) := by
  rw [persist] at h
  split at h
  · rename_i hft
    rw [store_write] at h
    split at h
    · rename_i hpl
      cases h
      exact .inl ⟨hpl.1, hpl.2, rfl⟩
    · rename_i hpl
      exact .inr ⟨fun hp => hpl hp.2, h⟩
  · rename_i hlr
    exact .inr ⟨fun hp => hlr hp.1, h⟩

variable {k : ResultCacheKey} {dir : Bytes}

theorem packLookup_eq_some {now : ℤ} (h : d.packLookup dg dir k now nowUnix = some e) :
    ∃ r, d.store true (dg.place dir k) = some r ∧ r.isStale nowUnix = false ∧ e = r.load k now nowUnix := by
  obtain ⟨r, hr, he⟩ := Option.bind_eq_some_iff.1 h
  exact ⟨r, hr, DiskRecord.read_eq_some he⟩

/-- A record the packed store does not serve is past its expiry. -/
theorem isStale_of_packLookup_eq_none {now : ℤ} {r : DiskRecord P} (h : d.packLookup dg dir k now nowUnix = none)
    (hr : d.store true (dg.place dir k) = some r) : r.isStale nowUnix = true := by
  have hrd : r.read k now nowUnix = none := Option.bind_eq_none_iff.1 h r hr
  rw [DiskRecord.read] at hrd
  split at hrd
  · assumption
  · cases hrd

theorem loadFromDisk_eq_some {now : ℤ} (h : d.loadFromDisk dg k dir now nowUnix = some e) :
    ∃ r, d.store false (dg.place dir k) = some r ∧ r.isStale nowUnix = false ∧ e = r.load k now nowUnix := by
  obtain ⟨r, hr, he⟩ := Option.bind_eq_some_iff.1 h
  exact ⟨r, hr, DiskRecord.read_eq_some he⟩

/-- What a lookup reads of the disk tier at one moment. -/
def reads (dg : Digests) (d : DiskTier P) (now nowUnix : ℤ) : DiskReads P where
  packLookup dir k nowUnix := d.packLookup dg dir k now nowUnix
  peekDiskRefBytes k dir := d.peekDiskRefBytes dg k dir
  loadFromDisk k dir := d.loadFromDisk dg k dir now nowUnix
  loadFromDiskStreaming k dir := d.loadFromDiskStreaming dg k dir now nowUnix
  packLookup_key h := by
    obtain ⟨r, -, hr⟩ := Option.bind_eq_some_iff.1 h
    rw [(DiskRecord.read_eq_some hr).2]
    rfl
  loadFromDisk_key h := by
    obtain ⟨r, -, hr⟩ := Option.bind_eq_some_iff.1 h
    rw [(DiskRecord.read_eq_some hr).2]
    rfl

theorem reads_nonneg (d : DiskTier P) (now nowUnix : ℤ) : (d.reads dg now nowUnix).Nonneg where
  packLookup h := by
    obtain ⟨r, -, -, rfl⟩ := packLookup_eq_some h
    exact Int.natCast_nonneg _
  loadFromDisk h := by
    obtain ⟨r, -, -, rfl⟩ := loadFromDisk_eq_some h
    exact Int.natCast_nonneg _

end DiskTier

/-! ## A small cache -/

/-- The keys are told apart by their arguments. -/
def argumentDigests : Digests where
  identityShard := id
  fingerprint k := k.canonicalArguments

/-- Memory for one entry, and a disk tier. -/
def oneEntry : CacheSettings :=
  { maxEntries := 1, diskDir := ascii "cache", diskMaxBytes := 1000 }

def resultKey (arguments : String) : ResultCacheKey :=
  { (default : ResultCacheKey) with
    identityScope := ascii "alice"
    canonicalArguments := ascii arguments }

end Vgi
