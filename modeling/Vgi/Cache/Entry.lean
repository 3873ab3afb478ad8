import Vgi.Lib.Bytes

/-!
# Cache keys and entries

The data model of the result cache: the key of a cached result, the entry
stored under it, the captured batches a scan stores, what a worker advertises
about its result, and the settings of the cache.

The cache never looks into the batches of an entry: the type `P` of what an
entry holds (`streams` in the program, the captured substreams) is a parameter.
Times are those of the monotonic clock, in nanoseconds.
-/

namespace Vgi

/-- `static_cast<int64_t>` of an unsigned 64-bit value. -/
def toInt64 (n : ℕ) : ℤ := if n < 2 ^ 63 then n else n - 2 ^ 64

theorem toInt64_of_lt {n : ℕ} (h : n < 2 ^ 63) : toInt64 n = n := by
  rw [toInt64, if_pos h]

/-- `INT64_MAX`, the expiry of what never expires. -/
def int64Max : ℤ := 2 ^ 63 - 1

/-- One second of the monotonic clock. -/
def second : ℤ := 1000000000

/-- The key of a cached result. All fields are equality-matched. -/
structure ResultCacheKey where
  identityScope : Bytes
  workerPath : Bytes
  functionName : Bytes
  schemaName : Bytes
  canonicalArguments : Bytes
  canonicalSettings : Bytes
  attachOptions : Bytes
  projection : Bytes
  attachedDataVersion : Bytes
  implementationVersion : Bytes
  catalogVersion : ℤ
  atUnit : Bytes
  atValue : Bytes
  filterBytes : Bytes
  orderByHint : Bytes
  sampleHint : Bytes
  transactionId : Bytes
  inputHash : Bytes
  shapeKey : Bytes
  secretScope : Bytes
  deriving DecidableEq

instance : Inhabited ResultCacheKey :=
  ⟨⟨[], [], [], [], [], [], [], [], [], [], 0, [], [], [], [], [], [], [], [], []⟩⟩

/-- A complete cached result. -/
structure ResultCacheEntry (P : Type*) where
  key : ResultCacheKey
  streams : P
  totalBytes : ℤ
  rows : ℤ := 0
  storedAt : ℤ := 0
  expiresAt : ℤ := 0
  neverExpires : Bool := false
  scope : Bytes := ascii "catalog"
  etag : Bytes := []
  lastModified : Bytes := []
  revalidatable : Bool := false
  catalogName : Bytes := []
  hits : ℕ := 0
  partitionLabel : Bytes := []
  diskBacked : Bool := false
  diskPath : Bytes := []
  deriving DecidableEq

namespace ResultCacheEntry

variable {P : Type*} (e : ResultCacheEntry P)

/-- The entry is past its deadline. -/
def isStale (now : ℤ) : Bool := !e.neverExpires && e.expiresAt ≤ now

/-- The entry, served once more. -/
def hit : ResultCacheEntry P := { e with hits := e.hits + 1 }

@[simp] theorem hit_totalBytes : e.hit.totalBytes = e.totalBytes := rfl

end ResultCacheEntry

/-- A captured batch: its serialised rows and what replaying it needs. -/
structure CachedBatch where
  ipc : Option Bytes
  rows : ℤ
  batchIndex : ℕ := 0
  hasBatchIndex : Bool := false
  partitionValuesBytes : Bytes := []
  deriving DecidableEq

/-- The batches of one capturing thread. -/
structure CachedStream where
  batches : List CachedBatch := []
  bytes : ℤ := 0
  rows : ℤ := 0
  deriving DecidableEq

/-- The entry of a scan. -/
abbrev ScanEntry := ResultCacheEntry (List CachedStream)

/-- What a worker advertises on the first batch of a result. -/
structure CacheControl where
  /-- Some `vgi.cache.*` key was seen. -/
  present : Bool := false
  noStore : Bool := false
  ttlSeconds : Option ℤ := none
  expiresRfc3339 : Bytes := []
  scope : Bytes := ascii "catalog"
  etag : Bytes := []
  lastModified : Bytes := []
  revalidatable : Bool := false
  staleWhileRevalidate : Option ℤ := none
  staleIfError : Option ℤ := none
  notModified : Bool := false
  /-- The result may be stored by partition, too. -/
  partitionScope : Bool := false
  /-- The results for single values may be stored. -/
  perValue : Bool := false
  deriving DecidableEq

namespace CacheControl

variable (cc : CacheControl)

/-- The worker says how long the result is fresh, and not that it must not be stored. -/
def cacheable : Bool :=
  cc.present && !cc.noStore && (cc.ttlSeconds.isSome || cc.expiresRfc3339 ≠ [])

/-- The result is only to be reused in its transaction. -/
def transactionScoped : Bool := cc.scope = ascii "transaction"

end CacheControl

/-- `VGI_CACHE_MAX_TTL_SECONDS`. -/
def maxTtlSeconds : ℤ := 315360000

/-- The settings of the cache. -/
structure CacheSettings where
  maxBytes : ℕ := 268435456
  maxEntryBytes : ℕ := 67108864
  /-- `0` is unlimited. -/
  maxEntries : ℕ := 131072
  diskDir : Bytes := []
  diskMaxBytes : ℕ := 0
  diskCompression : Bytes := ascii "zstd"
  diskCompressionLevel : ℕ := 1
  exchangeDiskMaxRefs : ℕ := 100000
  pack : Bool := true
  packMaxEntryBytes : ℕ := 262144
  packTargetBytes : ℕ := 67108864
  packCompactionDeadPct : ℕ := 50
  deriving DecidableEq

end Vgi
