import Vgi.Lib.Threads
import Vgi.Scan.PartitionServe

/-!
# Capturing a scan

A scan that missed the cache is captured: each of its readers (the threads of
the scan) keeps what it delivers, in its own substream in memory or, once the
capture has *spilled*, in a file all readers append to. The destructor of the
scan commits what was captured, if the result is complete.

The readers run in parallel (`scan`). They share the counters and flags of the
capture (`CaptureCtx`), which they read and write by atomic operations and under
two locks; each such operation is a step of its own here. Between two steps of a
reader any steps of others may happen, and at any point a reader may be destroyed
or throw. What depends on the world outside (whether a file could be opened,
written to, …) is an answer `ok` given to the step.

For each reader the model records, beside what the program has, the batches
delivered and the splits claimed and drained so far; the file records which
reader appended a batch.
-/

namespace Vgi

/-- What the capture uses of Arrow: the serialisation of batches. -/
structure BatchCodec (B : Type*) where
  serializeRecordBatch : (codec : Bytes) → (level : ℕ) → B → Bytes
  deserializeBatch : Bytes → Option B
  numRows : B → ℤ
  bufferBytes : B → ℤ
  resolveDiskCompressionCodec : Bytes → Bytes
  deserialize_serialize : ∀ codec level b,
    deserializeBatch (serializeRecordBatch codec level b) = some b

/-- A batch read from the worker, with the metadata it came with. -/
structure Delivery (B : Type*) where
  batch : B
  cacheControl : CacheControl := {}
  batchIndex : Option ℕ := none
  partitionValuesBytes : Bytes := []

/-- What the capture is set up with. -/
structure CaptureConfig where
  key : ResultCacheKey
  catalogName : Bytes
  transactionId : Bytes
  maxEntryBytes : ℤ
  defaultTtlSeconds : ℕ
  catalogVersionFrozen : Bool
  splitPath : Bool
  totalSplits : ℕ
  diskDir : Bytes
  diskMax : ℕ
  diskCompression : Bytes
  diskCompressionLevel : ℕ

/-! ## The spill file -/

/-- `VgiCaptureDiskWriter`. The file is open from its creation to the destructor of the scan. -/
structure DiskWriter where
  codec : Bytes
  level : ℕ
  diskMax : ℕ
  bytes : ℤ := 4
  logicalBytes : ℤ := 0
  rows : ℤ := 0
  failed : Bool := false
  records : List (ℕ × CachedBatch) := []

namespace DiskWriter

/-- The bytes of a record: five lengths and numbers, the partition values and the rows. -/
def recordBytes (cb : CachedBatch) : ℤ :=
  40 + cb.partitionValuesBytes.length + cb.ipc.elim 0 fun ipc => (ipc.length : ℤ)

/-- `AppendBatch`, of the reader `i`. -/
def appendBatch (w : DiskWriter) (i : ℕ) (cb : CachedBatch) (logicalLen : ℤ) (wrote : Bool) :
    DiskWriter × Bool :=
  if w.failed then (w, false)
  -- over the budget for one entry
  else if w.diskMax ≠ 0 ∧ toInt64 w.diskMax < w.bytes + recordBytes cb then
    ({ w with failed := true }, false)
  else if wrote then
    ({ w with
      bytes := w.bytes + recordBytes cb
      logicalBytes := w.logicalBytes + logicalLen
      rows := w.rows + cb.rows
      records := w.records ++ [(i, cb)] }, true)
  else ({ w with failed := true }, false)

end DiskWriter

section

variable {B : Type*} (io : BatchCodec B) (cfg : CaptureConfig) (cap : CaptureCtx)

/-- `TranscodeIpcWithCodec`: best effort, the bytes stay as they are on any failure. -/
def transcodeIpcWithCodec (ipc codec : Bytes) (level : ℕ) : Bytes :=
  if codec = [] ∨ codec = ascii "none" then ipc
  else (io.deserializeBatch ipc).elim ipc (io.serializeRecordBatch codec level)

/-- The batch as it is kept, with this serialisation. -/
def Delivery.cached (d : Delivery B) (ipc : Bytes) : CachedBatch where
  ipc := some ipc
  rows := io.numRows d.batch
  batchIndex := d.batchIndex.getD 0
  hasBatchIndex := d.batchIndex.isSome
  partitionValuesBytes := d.partitionValuesBytes

/-- The batch as it is kept in memory, not compressed. -/
def Delivery.inMemory (d : Delivery B) : CachedBatch :=
  d.cached io (io.serializeRecordBatch (ascii "none") 1 d.batch)

/-- One round of the loop of `DrainSubstreamToWriter`, as long as no append failed. -/
def drainBatch (i : ℕ) (cb : CachedBatch) (wrote : Bool) (w : DiskWriter) : DiskWriter × Bool :=
  match cb.ipc with
  | some ipc =>
    w.appendBatch i { cb with ipc := some (transcodeIpcWithCodec io ipc w.codec w.level) }
      ipc.length wrote
  | none => (w, true)

/-! ## The readers -/

/-- `VgiResultCaptureCtx`, without the substreams: these are with the readers. `cc` is
    the advertisement, once one was seen. The counter `nextSplit` is that of the scan. -/
structure CaptureCtx where
  totalBytes : ℤ := 0
  launched : ℕ := 0
  eos : ℕ := 0
  nextSplit : ℕ := 0
  completedSplits : ℕ := 0
  aborted : Bool := false
  cc : Option CacheControl := none
  spilling : Bool := false
  diskWriter : Option DiskWriter := none

/-- What the spill file has. -/
def CaptureCtx.records : List (ℕ × CachedBatch) :=
  cap.diskWriter.elim [] (·.records)

/-- Where a reader is. -/
inductive Pc (B : Type*)
  /-- Between two batches. -/
  | idle
  /-- Before the advertisement is latched. -/
  | latch (d : Delivery B)
  /-- Before the latched advertisement is checked. -/
  | check (d : Delivery B)
  /-- Before `spilling` is loaded. -/
  | stream (d : Delivery B)
  /-- Before the size of the batch is added to the total. -/
  | reserve (d : Delivery B)
  /-- Over the limit for memory: before the spill file is looked for, or created. -/
  | spill (d : Delivery B)
  /-- Within the limit: before the budget of all captures is asked. -/
  | budget (d : Delivery B)
  /-- In `DrainSubstreamToWriter`, with the batches left to append and whether the
      appends so far succeeded; then the next batch is appended, if there is one. -/
  | drain (todo : List CachedBatch) (appended : Bool) (next : Option (Delivery B))
  /-- Spilled: before `aborted` is loaded again. -/
  | recheck (d : Delivery B)
  /-- Before the batch is appended to the spill file. -/
  | append (d : Delivery B)
  /-- Before `aborted` is stored. -/
  | abort (next : Option (Delivery B))
  /-- Before the next split is claimed. -/
  | claim
  /-- Before the worker is initialised for the split claimed. -/
  | init (split : ℕ)
  /-- Out of splits. -/
  | eos
  | done
  /-- Destroyed, or out by an exception. -/
  | dead

/-- The local state of a reader. -/
structure Reader (B : Type*) where
  pc : Pc B := .idle
  captureStream : CachedStream := {}
  checkedFirstBatch : Bool := false
  captureSpilled : Bool := false
  /-- The split the reader is in. -/
  split : Option ℕ := none
  delivered : List (Delivery B) := []
  claimed : List ℕ := []
  drained : List ℕ := []

/-- After the substream was drained: append the next batch, if there is one. -/
def Pc.resume : Option (Delivery B) → Pc B
  | some d => .recheck d
  | none => .idle

/-- Under the lock: create the spill file, unless there is one or the capture was
    aborted. Whether there is a spill file then. -/
def beginSpill (opened : Bool) : CaptureCtx × Bool :=
  if cfg.diskDir ≠ [] ∧ 0 < cfg.diskMax then
    if cap.diskWriter.isNone && !cap.aborted && opened then
      ({ cap with
        diskWriter := some
          { codec := io.resolveDiskCompressionCodec cfg.diskCompression
            level := cfg.diskCompressionLevel
            diskMax := cfg.diskMax }
        spilling := true }, true)
    else (cap, cap.diskWriter.isSome)
  else (cap, false)

/-- The next step of a reader that is at work. -/
def advance (i : ℕ) (r : Reader B) (ok : Bool) : Option (CaptureCtx × Reader B) :=
  match r.pc with
  | .idle | .done | .dead => none
  | .latch d =>
    if !r.checkedFirstBatch && d.cacheControl.present && cap.cc.isNone then
      some ({ cap with cc := some d.cacheControl },
        { r with checkedFirstBatch := true, pc := .check d })
    else some (cap, { r with checkedFirstBatch := true, pc := .check d })
  | .check d =>
    if cap.cc.any (!·.cacheable) then some (cap, { r with pc := .abort none })
    else some (cap, { r with pc := .stream d })
  | .stream d =>
    if cap.spilling then
      if r.captureSpilled then some (cap, { r with pc := .recheck d })
      else some (cap, { r with pc := .drain r.captureStream.batches true (some d) })
    else some (cap, { r with pc := .reserve d })
  | .reserve d =>
    let running := cap.totalBytes + ((d.inMemory io).ipc.elim 0 fun ipc => (ipc.length : ℤ))
    some ({ cap with totalBytes := running },
      { r with pc := if cfg.maxEntryBytes < running then .spill d else .budget d })
  | .spill d =>
    match beginSpill io cfg cap ok with
    | (cap, true) =>
      let batches := r.captureStream.batches ++ [d.inMemory io]
      some (cap, { r with
        captureStream := { r.captureStream with batches := batches }
        pc := .drain batches true none })
    | (cap, false) => some (cap, { r with pc := .abort none })
  | .budget d =>
    if ok then
      some (cap, { r with
        captureStream :=
          { batches := r.captureStream.batches ++ [d.inMemory io]
            bytes := r.captureStream.bytes +
              ((d.inMemory io).ipc.elim 0 fun ipc => (ipc.length : ℤ))
            rows := r.captureStream.rows + io.numRows d.batch }
        pc := .idle })
    else some (cap, { r with pc := .abort none })
  | .drain (cb :: todo) appended next =>
    match cap.diskWriter with
    | none => none
    | some w =>
      if appended then
        let wa := drainBatch io i cb ok w
        some ({ cap with diskWriter := some wa.1 }, { r with pc := .drain todo wa.2 next })
      else some (cap, { r with pc := .drain todo false next })
  | .drain [] appended next =>
    some (cap, { r with
      captureStream := {}
      captureSpilled := true
      pc := if appended then .resume next else .abort next })
  | .recheck d =>
    if cap.aborted then some (cap, { r with pc := .idle })
    else some (cap, { r with pc := .append d })
  | .append d =>
    match cap.diskWriter with
    | none => none
    | some w =>
      let ipc := io.serializeRecordBatch w.codec w.level d.batch
      let wa := w.appendBatch i (d.cached io ipc) (io.bufferBytes d.batch) ok
      some ({ cap with diskWriter := some wa.1 },
        { r with pc := if wa.2 then .idle else .abort none })
  | .abort next => some ({ cap with aborted := true }, { r with pc := .resume next })
  | .claim =>
    if cap.nextSplit < cfg.totalSplits then
      some ({ cap with nextSplit := cap.nextSplit + 1 },
        { r with claimed := r.claimed ++ [cap.nextSplit], pc := .init cap.nextSplit })
    else some ({ cap with nextSplit := cap.nextSplit + 1 }, { r with pc := .eos })
  | .init split =>
    if ok then some (cap, { r with split := some split, pc := .idle })
    else some (cap, { r with pc := .dead })
  | .eos => some ({ cap with eos := cap.eos + 1 }, { r with pc := .done })

/-- What happens next in a reader. -/
inductive ReaderAct (B : Type*)
  /-- `InstallBatch` is called with a batch. -/
  | deliver (d : Delivery B)
  /-- The worker says that the stored result is still valid. -/
  | notModified
  /-- The stream of the worker, or of the split, ends; or the first split is claimed. -/
  | finish
  /-- The next step of the reader's work. -/
  | advance (ok : Bool)
  /-- The reader is destroyed or throws. -/
  | die

/-- A step of the reader `i`. -/
def readerStep (i : ℕ) (r : Reader B) : ReaderAct B → Option (CaptureCtx × Reader B)
  | .deliver d =>
    match r.pc with
    | .idle =>
      -- on the split path a batch is only read in a split
      if cfg.splitPath && r.split.isNone then none
      else if cap.aborted then some (cap, { r with delivered := r.delivered ++ [d] })
      else some (cap, { r with delivered := r.delivered ++ [d], pc := .latch d })
    | _ => none
  | .notModified =>
    match r.pc with
    | .idle => some ({ cap with aborted := true }, r)
    | _ => none
  | .finish =>
    match r.pc with
    | .idle =>
      if cfg.splitPath then
        match r.split with
        | some k =>
          some ({ cap with completedSplits := cap.completedSplits + 1 },
            { r with split := none, drained := r.drained ++ [k], pc := .claim })
        | none => some (cap, { r with pc := .claim })
      else some ({ cap with eos := cap.eos + 1 }, { r with pc := .done })
    | _ => none
  | .advance ok => advance io cfg cap i r ok
  | .die =>
    match r.pc with
    | .done => none
    | _ => some (cap, { r with pc := .dead })

/-- The readers of a scan. A reader starts with `NewStream`. -/
def scan : Threads CaptureCtx (Reader B) Unit (ReaderAct B) where
  spawn cap _ _ := some ({ cap with launched := cap.launched + 1 }, {})
  step := readerStep io cfg

/-- No reader has started. -/
def scanInit : Threads.Config CaptureCtx (Reader B) := ⟨{}, []⟩

/-! ## The destructor -/

/-- The entry of a captured result: `none` where its scope or freshness does not allow it to be stored. -/
def capturedEntry {P : Type*} (cc : CacheControl) (now : ℤ) (streams : P)
    (rows bytes : ℤ) : Option (ResultCacheEntry P) :=
  let ttl := min (cc.ttlSeconds.getD (toInt64 cfg.defaultTtlSeconds)) maxTtlSeconds
  let noFreshness := decide (ttl ≤ 0) && cc.expiresRfc3339 = []
  let frozen := cfg.catalogVersionFrozen || cfg.key.atValue ≠ []
  if cc.transactionScoped && cfg.transactionId = [] then none
  else if noFreshness && !frozen && !(cc.revalidatable && cc.etag ≠ []) then none
  else some
    { key := if cc.transactionScoped then { cfg.key with transactionId := cfg.transactionId }
        else cfg.key
      streams := streams
      totalBytes := bytes
      rows := rows
      storedAt := now
      expiresAt := now + (if 0 < ttl then ttl else 0) * second
      neverExpires := noFreshness && frozen
      scope := cc.scope
      etag := cc.etag
      lastModified := cc.lastModified
      revalidatable := cc.revalidatable
      catalogName := cfg.catalogName }

/-- A result that is handed to the cache. -/
inductive Commit
  /-- To `Insert`: an entry in memory, and whether it may go to disk. -/
  | insert (entry : ScanEntry) (allowDisk : Bool)
  /-- To `CommitStreamingCapture`: the spill file, with its metadata. -/
  | streaming (entry : ResultCacheEntry Unit) (records : List (ℕ × CachedBatch))

/-- The batches committed, each with the reader it is from. -/
def Commit.batches : Commit → List (ℕ × CachedBatch)
  | .insert entry _ => entry.streams.zipIdx.flatMap fun s => s.1.batches.map (s.2, ·)
  | .streaming _ records => records

/-- `DrainSubstreamToWriter`, in one go. Which writes succeed is given by the number of records written before. -/
def drainSubstreamToWriter (wrote : ℕ → Bool) (i : ℕ) :
    List CachedBatch → DiskWriter → DiskWriter × Bool
  | [], w => (w, true)
  | cb :: rest, w =>
    let wa := drainBatch io i cb (wrote w.records.length) w
    if wa.2 then drainSubstreamToWriter wrote i rest wa.1 else (wa.1, false)

/-- Drain what the readers from `i` on have left in memory. -/
def drainStreams (wrote : ℕ → Bool) : ℕ → List CachedStream → DiskWriter → DiskWriter × Bool
  | _, [], w => (w, true)
  | i, s :: rest, w =>
    let wa := drainSubstreamToWriter io wrote i s.batches w
    if wa.2 then drainStreams wrote (i + 1) rest wa.1 else (wa.1, false)

/-- The gate of the destructor. -/
def complete (cc : CacheControl) : Bool :=
  cc.cacheable && !cap.aborted && 0 < cap.launched && cap.eos = cap.launched &&
    (!cfg.splitPath || (0 < cfg.totalSplits && cap.completedSplits = cfg.totalSplits))

/-- `CommitStreamingCapture`; `renamed` if the file could be renamed and its ref written. -/
def commitStreamingCapture (w : DiskWriter) (entry : ResultCacheEntry Unit) (renamed : Bool) : Option Commit :=
  if w.failed || !renamed then none
  else some (.streaming { entry with rows := w.rows, totalBytes := w.logicalBytes } w.records)

/-- What the destructor hands to the cache: entries of single partitions, which stay in memory, and then the whole
    result. -/
structure Committed where
  partitions : List ScanEntry := []
  whole : Option Commit := none

/-- `~VgiTableFunctionGlobalState`: what it commits. If the split by partition was requested, `parts` is what it needs;
    the key and the streams are those of the scan. -/
def destructor {V Ty : Type*} (eng : PartitionEngine V Ty) (cfg : CaptureConfig) (parts : Option (PartitionCapture Ty))
    (s : Threads.Config CaptureCtx (Reader B)) (now : ℤ) (wrote : ℕ → Bool) (renamed : Bool) : Committed :=
  let streams := s.locals.map (·.captureStream)
  match s.shared.cc with
  | none => {}
  | some cc =>
    if complete cfg s.shared cc then
      if s.shared.spilling then
        match capturedEntry cfg cc now () 0 0, s.shared.diskWriter with
        | some entry, some w =>
          -- a spilled entry could neither be revalidated nor be kept to its transaction
          if (!entry.neverExpires && entry.expiresAt ≤ entry.storedAt) || cc.transactionScoped then
            {}
          else
            let wa := drainStreams io wrote 0 streams w
            { whole := if wa.2 then commitStreamingCapture wa.1 entry renamed else none }
        | _, _ => {}
      else
        match capturedEntry cfg cc now streams (streams.map (·.rows)).sum (streams.map (·.bytes)).sum with
        | none => {}
        | some entry =>
          { partitions :=
              if cc.partitionScope && !cc.transactionScoped then
                parts.elim [] fun p => partitionEntries eng { p with key := cfg.key, streams } entry
              else []
            whole := some (.insert entry !cc.transactionScoped) }
    else {}

end

end Vgi
