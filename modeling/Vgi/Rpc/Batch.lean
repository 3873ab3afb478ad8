import Vgi.Cache.Reap

/-!
# Batches on the wire

A record batch comes with metadata of its own, a list of keys with values. What it is for is seen from its
metadata (`classifyBatch`): a log message or an error, a pointer to where the batch is to be got from, or data. The
metadata of data say what else is known about it (`WirePeer.notes`): where it is in the order of the result, its
partition, the rows it was made from, whether more of it follows, how it may be cached, and with which token the
next request goes on.
-/

namespace Vgi

/-- The keys of metadata with their values. The first value of a key is the one that is found. -/
abbrev Metadata := List (Bytes × Bytes)

def Metadata.findKey (md : Metadata) (key : Bytes) : Option Bytes := md.lookup key

structure WireBatch where
  numRows : ℕ
  metadata : Metadata := []
  /-- Its columns, encoded. -/
  columns : Bytes := []
  deriving DecidableEq

inductive RpcBatchType
  | data | log | error | externalLocation
  deriving DecidableEq

def rpcLocationKey : Bytes := ascii "vgi_rpc.location"

def classifyBatch (b : WireBatch) : RpcBatchType :=
  if b.metadata.isEmpty then .data
  else if 0 < b.numRows then .data
  else
    match (b.metadata.findKey (ascii "vgi_rpc.log_level")).or (b.metadata.findKey (ascii "vgi.log_level")) with
    | some level => if level = ascii "EXCEPTION" then .error else .log
    | none => if (b.metadata.findKey rpcLocationKey).isSome then .externalLocation else .data

/-! ## Cache-control -/

/-- The keys of which one makes a cache-control present. -/
def cacheControlKeys : List Bytes :=
  [ascii "vgi.cache.ttl", ascii "vgi.cache.expires", ascii "vgi.cache.no_store", ascii "vgi.cache.scope",
    ascii "vgi.cache.etag", ascii "vgi.cache.last_modified", ascii "vgi.cache.revalidatable",
    ascii "vgi.cache.stale_while_revalidate", ascii "vgi.cache.stale_if_error", ascii "vgi.cache.not_modified",
    ascii "vgi.cache.partition_scope", ascii "vgi.cache.per_value"]

def parseVgiCacheControl (md : Metadata) : CacheControl :=
  let flag (key : Bytes) : Bool := md.findKey key = some (ascii "1")
  let number (key : Bytes) : Option ℤ := (md.findKey key).map fun text => parseInt text 0
  let scope := (md.findKey (ascii "vgi.cache.scope")).getD []
  { present := cacheControlKeys.any fun key => (md.findKey key).isSome
    ttlSeconds := (number (ascii "vgi.cache.ttl")).map fun ttl => min (max ttl 0) maxTtlSeconds
    expiresRfc3339 := (md.findKey (ascii "vgi.cache.expires")).getD []
    noStore := flag (ascii "vgi.cache.no_store")
    scope := if scope = [] then ascii "catalog" else scope
    etag := (md.findKey (ascii "vgi.cache.etag")).getD []
    lastModified := (md.findKey (ascii "vgi.cache.last_modified")).getD []
    revalidatable := flag (ascii "vgi.cache.revalidatable")
    staleWhileRevalidate := number (ascii "vgi.cache.stale_while_revalidate")
    staleIfError := number (ascii "vgi.cache.stale_if_error")
    notModified := flag (ascii "vgi.cache.not_modified")
    partitionScope := flag (ascii "vgi.cache.partition_scope")
    perValue := flag (ascii "vgi.cache.per_value") }

/-- Without a key nothing is advertised. -/
theorem parseVgiCacheControl_of_not_present {md : Metadata} (h : (parseVgiCacheControl md).present = false) :
    parseVgiCacheControl md = {} := by
  have hno : ∀ key ∈ cacheControlKeys, md.findKey key = none := fun key hkey =>
    Option.not_isSome_iff_eq_none.1 (List.any_eq_false.1 h key hkey)
  simp only [cacheControlKeys, List.forall_mem_cons] at hno
  obtain ⟨h₁, h₂, h₃, h₄, h₅, h₆, h₇, h₈, h₉, h₁₀, h₁₁, h₁₂, -⟩ := hno
  have hpr : (cacheControlKeys.any fun key => (md.findKey key).isSome) = false := h
  rw [parseVgiCacheControl]
  simp only [h₁, h₂, h₃, h₄, h₅, h₆, h₇, h₈, h₉, h₁₀, h₁₁, h₁₂, hpr]
  rfl

/-! ## Notes -/

/-- Exceptions while a reply is read. -/
inductive WireError
  /-- The worker reports an error. -/
  | worker
  /-- The value of a key of metadata is malformed. -/
  | metadata (key : Bytes)
  /-- The batch is not what the reader accepts, or cannot be got from where it is. -/
  | invalidBatch
  | externalLocation
  | contentLength
  | decompression
  | responseTooLarge
  /-- The reply is no stream, or lacks what it has to have. -/
  | emptyTick
  | noSchema
  | emptyErrorSchema
  | missingHeader
  | queryStream
  | querySchema
  | ipc
  deriving DecidableEq

/-- What reading a batch depends on: the decoding of base 64, what is accepted (`ValidateWorkerBatch`), and what
    is found at a location. -/
structure WirePeer where
  fromBase64 : Bytes → Option Bytes
  validate : WireBatch → Bool
  resolve : Bytes → Option WireBatch

/-- `DConstants::INVALID_INDEX`. -/
def invalidIndex : ℕ := 2 ^ 64 - 1

def parseVgiBatchIndex (md : Metadata) : Except WireError ℕ :=
  match md.findKey (ascii "vgi_batch_index") with
  | none => .ok invalidIndex
  | some value =>
    match stoull value with
    | some (parsed, []) => .ok parsed
    | _ => .error (.metadata (ascii "vgi_batch_index"))

namespace WirePeer

variable (peer : WirePeer)

def parseVgiB64Bytes (md : Metadata) (key : Bytes) : Except WireError Bytes :=
  match md.findKey key with
  | none => .ok []
  | some value =>
    match peer.fromBase64 value with
    | none => .error (.metadata key)
    | some bytes => .ok bytes

end WirePeer

def partitionValuesKey : Bytes := ascii "vgi_partition_values#b64"

def parentRowKey : Bytes := ascii "vgi_rpc.parent_row#b64"

/-- What the metadata of a batch say about it. -/
structure BatchNotes where
  batchIndex : ℕ
  partitionValues : Bytes
  parentRow : Bytes
  cacheControl : CacheControl
  moreOutput : Bool
  streamState : Bytes
  deriving DecidableEq

def WirePeer.notes (peer : WirePeer) (md : Metadata) : Except WireError BatchNotes := do
  let batchIndex ← parseVgiBatchIndex md
  let partitionValues ← peer.parseVgiB64Bytes md partitionValuesKey
  let parentRow ← peer.parseVgiB64Bytes md parentRowKey
  return {
    batchIndex
    partitionValues
    parentRow
    cacheControl := parseVgiCacheControl md
    moreOutput := md.findKey (ascii "vgi.status") = some (ascii "HAVE_MORE_OUTPUT")
    streamState := (md.findKey (ascii "vgi_rpc.stream_state#b64")).getD [] }

theorem WirePeer.notes_cacheControl {peer : WirePeer} {md : Metadata} {n : BatchNotes} (h : peer.notes md = .ok n)
    (hab : n.cacheControl.present = false) : n.cacheControl = {} := by
  rw [notes] at h
  rcases hi : parseVgiBatchIndex md with e | i <;> rw [hi] at h
  · cases h
  rcases hp : peer.parseVgiB64Bytes md partitionValuesKey with e | p <;> rw [hp] at h
  · cases h
  rcases hr : peer.parseVgiB64Bytes md parentRowKey with e | r <;> rw [hr] at h
  · cases h
  cases h
  exact parseVgiCacheControl_of_not_present hab

end Vgi
