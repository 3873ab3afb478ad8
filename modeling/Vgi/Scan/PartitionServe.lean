import Vgi.Cache.MemoryHolds
import Vgi.Scan.PartitionFilter

/-!
# Serving a scan from its partitions

At the end of a captured scan of a function with single-valued partitions, the
captured batches are put into buckets by their partition tuple, and one entry is
stored for each bucket (`splitAndStorePartitionEntries`). A later scan whose
filters enumerate the tuples it requests is then served from these entries,
without the worker, when the memory tier has all of them (`servePartitions`).

The tuples requested are the product of the constants of the filters, one for
each way to choose them. So the replay has every captured batch that satisfies
the filters once, and no other, if and only if each partition column has one
filter only and its constants are different from each other and from `NULL`
(`SplitThenServe.served_exact_iff`).
-/

namespace Vgi

open List

/-- The batch without its position in the replay. -/
def CachedBatch.content (b : CachedBatch) : CachedBatch :=
  { b with batchIndex := 0, hasBatchIndex := false }

section

variable {V Ty : Type*} (eng : PartitionEngine V Ty) {P : Type*}

/-! ## Keys of partitions -/

/-- The values of a tuple, cast to the types of the columns. -/
def castTuple : List V → List Ty → Option (List V)
  | v :: vs, ty :: tys =>
    match eng.defaultCastAs v ty, castTuple vs tys with
    | some x, some xs => some (x :: xs)
    | _, _ => none
  | _, _ => some []

/-- `CanonicalPartitionTupleKey`: the sort key of the tuple. -/
def canonicalPartitionTupleKey (tuple : List V) (types : List Ty) : Option Bytes :=
  (castTuple eng tuple types).map eng.sortKey

/-- `PartitionDiscriminator`. -/
def partitionDiscriminator (tuple : List V) (types : List Ty) : Option Bytes :=
  (canonicalPartitionTupleKey eng tuple types).map fun key => ascii "p:" ++ eng.sha256Hex key

/-- `BuildPartitionKey`: the key of a partition, from that of the scan. -/
def buildPartitionKey (base : ResultCacheKey) (residual disc : Bytes) : ResultCacheKey :=
  { base with
    filterBytes := residual
    orderByHint := []
    sampleHint := []
    transactionId := []
    inputHash := disc }

/-- `PartitionLabel`. -/
def partitionLabel (names : List Bytes) (tuple : List V) : Bytes :=
  (ascii ", ").intercalate ((names.zip tuple).map fun nv =>
    nv.1 ++ ascii "=" ++ if eng.isNull nv.2 then ascii "NULL" else eng.toStr nv.2)

/-! ## The split -/

/-- The batches of a partition. -/
structure Bucket where
  batches : List CachedBatch := []
  rows : ℤ := 0
  bytes : ℤ := 0
  label : Bytes := []
  deriving DecidableEq

/-- Add a batch; the first one labels the bucket. -/
def Bucket.add (bk : Bucket) (b : CachedBatch) (label : Bytes) : Bucket where
  batches := bk.batches ++ [b]
  rows := bk.rows + b.rows
  bytes := bk.bytes + (b.ipc.elim 0 fun ipc => (ipc.length : ℤ))
  label := if bk.batches.isEmpty then label else bk.label

/-- Add a batch to the bucket `disc`, made if there is none, in a map in the order of its keys. -/
def addToBucket (disc : Bytes) (b : CachedBatch) (label : Bytes) (bks : List (Bytes × Bucket)) :
    List (Bytes × Bucket) :=
  if bks.any (·.1 = disc) then
    bks.map fun dbk => if dbk.1 = disc then (dbk.1, dbk.2.add b label) else dbk
  else bks.orderedInsert (fun x y => x.1 < y.1) (disc, Bucket.add {} b label)

/-- What the capture of a scan knows of its partitions. -/
structure PartitionCapture (Ty : Type*) where
  key : ResultCacheKey
  types : List Ty
  names : List Bytes
  residualFilterBytes : Bytes
  max : ℕ
  streams : List CachedStream

/-- The captured batches. -/
def PartitionCapture.batches {Ty : Type*} (cap : PartitionCapture Ty) : List CachedBatch :=
  cap.streams.flatMap (·.batches)

/-- The loop over the captured batches: `none` when one cannot be classified. -/
def bucketBatches (cap : PartitionCapture Ty) :
    List (Bytes × Bucket) → List CachedBatch → Option (List (Bytes × Bucket))
  | bks, [] => some bks
  | bks, b :: bs =>
    match eng.decodePartitionMinTuple b.partitionValuesBytes with
    | none => none
    | some tuple =>
      if tuple.length ≠ cap.types.length then none
      else
        match partitionDiscriminator eng tuple cap.types with
        | none => none
        | some disc =>
          bucketBatches cap (addToBucket disc b (partitionLabel eng cap.names tuple) bks) bs

/-- The entry of a bucket; its freshness is that of the entry of the scan. -/
def bucketEntry (cap : PartitionCapture Ty) (whole : ResultCacheEntry P)
    (disc : Bytes) (bk : Bucket) : ScanEntry where
  key := buildPartitionKey cap.key cap.residualFilterBytes disc
  streams := [{ batches := bk.batches, rows := bk.rows, bytes := bk.bytes }]
  totalBytes := bk.bytes
  rows := bk.rows
  storedAt := whole.storedAt
  expiresAt := whole.expiresAt
  neverExpires := whole.neverExpires
  scope := whole.scope
  revalidatable := false
  catalogName := whole.catalogName
  partitionLabel := bk.label

/-- What `SplitAndStorePartitionEntries` hands to the cache. -/
def partitionEntries (cap : PartitionCapture Ty) (whole : ResultCacheEntry P) :
    List ScanEntry :=
  if cap.types.isEmpty then []
  else
    match bucketBatches eng cap [] cap.batches with
    | none => []
    | some bks =>
      if bks.isEmpty || cap.max < bks.length then []
      else bks.map fun bk => bucketEntry cap whole bk.1 bk.2

/-- `SplitAndStorePartitionEntries`. -/
def splitAndStorePartitionEntries (cap : PartitionCapture Ty)
    (whole : ResultCacheEntry P) (allowDisk : Bool) (t : MemoryTier (List CachedStream)) :
    MemoryTier (List CachedStream) :=
  (partitionEntries eng cap whole).foldl (fun t e => (t.insertLocked e allowDisk).1) t

/-! ## The serve -/

/-- The batches of the entries, one after the other, with fresh indices. -/
def mergeBatches (hits : List ScanEntry) : List CachedBatch :=
  (hits.flatMap fun h => h.streams.flatMap (·.batches)).zipIdx.map fun bi =>
    { bi.1 with hasBatchIndex := true, batchIndex := bi.2 }

/-- The transient entry a scan is served from. -/
def combinedEntry (key : ResultCacheKey) (catalogName : Bytes)
    (hits : List ScanEntry) : ScanEntry :=
  let merged := mergeBatches hits
  let rows := (merged.map (·.rows)).sum
  let bytes := (hits.map (·.totalBytes)).sum
  { key := key
    streams := [{ batches := merged, rows := rows, bytes := bytes }]
    totalBytes := bytes
    rows := rows
    neverExpires := true
    catalogName := catalogName }

/-- The hits, if all are there and none is on disk. -/
def allHits : List (Option (ResultCacheEntry P)) → Option (List (ResultCacheEntry P))
  | [] => some []
  | none :: _ => none
  | some h :: hs => if h.diskBacked then none else (allHits hs).map (h :: ·)

/-- The per-partition serve of a scan with the key `key`, classified as `cls`: the entry it replays, if the memory tier
    has all the partitions requested. A constant that cannot be cast throws. -/
def servePartitions (key : ResultCacheKey) (catalogName : Bytes) (cls : PartitionClass V Ty)
    (now : ℤ) (t : MemoryTier (List CachedStream)) : Option ScanEntry :=
  if cls.enumerable && !cls.enumeratedTuples.isEmpty then
    match allSome (cls.enumeratedTuples.map (partitionDiscriminator eng · cls.types)) with
    | none => none
    | some discs =>
      let keys := discs.map (buildPartitionKey key cls.residualFilterBytes)
      (allHits (t.lookupBatch now keys).2).map (combinedEntry key catalogName)
  else none

/-! ## What the split stores -/

/-- The partition tuple of a captured batch, cast to the types of the columns. -/
def partitionTuple (types : List Ty) (b : CachedBatch) : Option (List V) :=
  match eng.decodePartitionMinTuple b.partitionValuesBytes with
  | none => none
  | some tuple => if tuple.length = types.length then castTuple eng tuple types else none

/-- The discriminator of a tuple already cast. -/
def tupleDisc (w : List V) : Bytes := ascii "p:" ++ eng.sha256Hex (eng.sortKey w)

/-- The batch is of the partition `disc`. -/
def ofPartition (types : List Ty) (disc : Bytes) (b : CachedBatch) : Bool :=
  (partitionTuple eng types b).map (tupleDisc eng) = some disc

theorem partitionDiscriminator_eq (tuple : List V) (types : List Ty) :
    partitionDiscriminator eng tuple types = (castTuple eng tuple types).map (tupleDisc eng) := by
  rw [partitionDiscriminator, canonicalPartitionTupleKey, Option.map_map]
  rfl

/-- The buckets of the batches `done`: there is one for each partition, with its
    batches in the order of their capture. -/
structure Buckets (types : List Ty) (bks : List (Bytes × Bucket)) (done : List CachedBatch) : Prop where
  sound : ∀ d bk, (d, bk) ∈ bks → bk.batches = done.filter (ofPartition eng types d)
  complete : ∀ b ∈ done, ∃ d bk, ofPartition eng types d b = true ∧ (d, bk) ∈ bks
  nonempty : ∀ d bk, (d, bk) ∈ bks → bk.batches ≠ []
  nonneg : ∀ d bk, (d, bk) ∈ bks → 0 ≤ bk.bytes

variable {eng} {bk : Bucket}

theorem Bucket.add_bytes_nonneg (h : 0 ≤ bk.bytes) (b : CachedBatch) (label : Bytes) : 0 ≤ (bk.add b label).bytes := by
  rw [Bucket.add]
  cases b.ipc with
  | none => simpa using h
  | some ipc => exact add_nonneg h (Int.natCast_nonneg _)

/-- The bucket a batch is added to: that of its partition, or a new one. -/
def BucketOf (bks : List (Bytes × Bucket)) (disc : Bytes) (bk : Bucket) : Prop :=
  (disc, bk) ∈ bks ∨ bk = {} ∧ ∀ bk', (disc, bk') ∉ bks

theorem exists_bucketOf (bks : List (Bytes × Bucket)) (disc : Bytes) : ∃ bk, BucketOf bks disc bk := by
  by_cases h : ∃ bk, (disc, bk) ∈ bks
  · obtain ⟨bk, hm⟩ := h
    exact ⟨bk, .inl hm⟩
  · exact ⟨{}, .inr ⟨rfl, fun bk' hm => h ⟨bk', hm⟩⟩⟩

variable {bks : List (Bytes × Bucket)} {disc : Bytes} {b : CachedBatch}

/-- The other buckets stay as they are. -/
theorem mem_addToBucket {label : Bytes} {d : Bytes} :
    (d, bk) ∈ addToBucket disc b label bks ↔ d ≠ disc ∧ (d, bk) ∈ bks ∨
      d = disc ∧ ∃ bk₀, BucketOf bks disc bk₀ ∧ bk = bk₀.add b label := by
  rw [addToBucket]
  split
  case isTrue hany =>
    obtain ⟨⟨d', bk'⟩, hm', hd'⟩ := any_eq_true.1 hany
    obtain rfl : d' = disc := by simpa using hd'
    rw [mem_map]
    constructor
    · rintro ⟨⟨d₀, bk₀⟩, hm, he⟩
      by_cases hd : d₀ = d'
      · rw [if_pos hd] at he
        cases he
        exact .inr ⟨hd, bk₀, .inl (hd ▸ hm), rfl⟩
      · rw [if_neg hd] at he
        cases he
        exact .inl ⟨hd, hm⟩
    · rintro (⟨hd, hm⟩ | ⟨rfl, bk₀, hm | ⟨_, hno⟩, rfl⟩)
      · exact ⟨(d, bk), hm, if_neg hd⟩
      · exact ⟨(d, bk₀), hm, if_pos rfl⟩
      · exact absurd hm' (hno bk')
  case isFalse hany =>
    have hnew : ∀ bk', (disc, bk') ∉ bks := fun bk' hm => hany (any_eq_true.2 ⟨_, hm, by simp⟩)
    rw [(perm_orderedInsert _ _ _).mem_iff, mem_cons]
    constructor
    · rintro (he | hm)
      · cases he
        exact .inr ⟨rfl, {}, .inr ⟨rfl, hnew⟩, rfl⟩
      · exact .inl ⟨fun hd => hnew bk (hd ▸ hm), hm⟩
    · rintro (⟨_, hm⟩ | ⟨rfl, bk₀, hm | ⟨rfl, _⟩, rfl⟩)
      · exact .inr hm
      · exact absurd hm (hnew bk₀)
      · exact .inl rfl

variable {types : List Ty}

/-- A batch is of one partition. -/
theorem ofPartition_unique {d d' : Bytes} (h : ofPartition eng types d b = true)
    (h' : ofPartition eng types d' b = true) : d = d' := by
  rw [ofPartition, decide_eq_true_eq] at h h'
  exact Option.some.inj (h.symm.trans h')

variable {done : List CachedBatch}

/-- Also for a new bucket: its batches are those of its partition. -/
theorem Buckets.batches_of (h : Buckets eng types bks done) (hbk : BucketOf bks disc bk) :
    bk.batches = done.filter (ofPartition eng types disc) ∧ 0 ≤ bk.bytes := by
  rcases hbk with hm | ⟨rfl, hno⟩
  · exact ⟨h.sound _ _ hm, h.nonneg _ _ hm⟩
  · refine ⟨(filter_eq_nil_iff.2 fun b hb hd => ?_).symm, le_rfl⟩
    obtain ⟨d, bk, hd', hm⟩ := h.complete b hb
    exact hno bk (ofPartition_unique hd' hd ▸ hm)

/-- Adding a batch of the partition `disc`. -/
theorem Buckets.add (h : Buckets eng types bks done) (hb : ofPartition eng types disc b = true) (label : Bytes) :
    Buckets eng types (addToBucket disc b label bks) (done ++ [b]) := by
  have hot : ∀ {d}, d ≠ disc → (done ++ [b]).filter (ofPartition eng types d) =
      done.filter (ofPartition eng types d) := by
    intro d hd
    have hnot : ¬ofPartition eng types d b = true := fun h' => hd (ofPartition_unique h' hb)
    rw [filter_append, filter_cons_of_neg hnot, filter_nil, append_nil]
  have hsm : (done ++ [b]).filter (ofPartition eng types disc) = done.filter (ofPartition eng types disc) ++ [b] := by
    rw [filter_append, filter_cons_of_pos hb, filter_nil]
  refine ⟨fun d bk hd => ?_, fun b' hb' => ?_, fun d bk hd => ?_, fun d bk hd => ?_⟩
  · rcases mem_addToBucket.1 hd with ⟨hne, hm⟩ | ⟨rfl, bk₀, h₀, rfl⟩
    · rw [hot hne, h.sound _ _ hm]
    · rw [hsm, ← (h.batches_of h₀).1]
      rfl
  · have hnew : ∃ bk, (disc, bk) ∈ addToBucket disc b label bks := by
      obtain ⟨bk₀, h₀⟩ := exists_bucketOf bks disc
      exact ⟨_, mem_addToBucket.2 (.inr ⟨rfl, bk₀, h₀, rfl⟩)⟩
    rcases mem_append.1 hb' with hb' | hb'
    · obtain ⟨d, bk, hd, hm⟩ := h.complete b' hb'
      by_cases hdd : d = disc
      · obtain ⟨bk', hm'⟩ := hnew
        exact ⟨disc, bk', hdd ▸ hd, hm'⟩
      · exact ⟨d, bk, hd, mem_addToBucket.2 (.inl ⟨hdd, hm⟩)⟩
    · obtain rfl := mem_singleton.1 hb'
      obtain ⟨bk', hm'⟩ := hnew
      exact ⟨disc, bk', hb, hm'⟩
  · rcases mem_addToBucket.1 hd with ⟨_, hm⟩ | ⟨_, bk₀, _, rfl⟩
    · exact h.nonempty _ _ hm
    · simp [Bucket.add]
  · rcases mem_addToBucket.1 hd with ⟨_, hm⟩ | ⟨_, bk₀, h₀, rfl⟩
    · exact h.nonneg _ _ hm
    · exact Bucket.add_bytes_nonneg (h.batches_of h₀).2 b label

variable {cap : PartitionCapture Ty}

/-- The loop over the captured batches makes their buckets. -/
theorem Buckets.bucketBatches {bs : List CachedBatch} {bks' : List (Bytes × Bucket)}
    (h : Buckets eng cap.types bks done) (hb : bucketBatches eng cap bks bs = some bks') :
    Buckets eng cap.types bks' (done ++ bs) := by
  induction bs generalizing bks done with
  | nil =>
    cases hb
    rwa [append_nil]
  | cons b bs ih =>
    rw [Vgi.bucketBatches] at hb
    split at hb
    · exact absurd hb (by simp)
    rename_i tuple ht
    split at hb
    · exact absurd hb (by simp)
    rename_i hlen
    split at hb
    · exact absurd hb (by simp)
    rename_i disc hd
    have hof : ofPartition eng cap.types disc b = true := by
      rw [partitionDiscriminator_eq] at hd
      rw [ofPartition, partitionTuple, ht, decide_eq_true_eq]
      simp only [not_not.1 hlen, if_true]
      exact hd
    have := ih (h.add hof _) hb
    rwa [append_assoc, singleton_append] at this

/-- An entry under the key of a partition has the batches captured of it. -/
def FromCapture (eng : PartitionEngine V Ty) (cap : PartitionCapture Ty)
    (e : ScanEntry) : Prop :=
  ∀ disc, e.key = buildPartitionKey cap.key cap.residualFilterBytes disc →
    e.streams.flatMap (·.batches) = cap.batches.filter (ofPartition eng cap.types disc) ∧
      e.streams.flatMap (·.batches) ≠ []

/-- The entry is under no key of a partition. -/
def Foreign (cap : PartitionCapture Ty) (e : ScanEntry) : Prop :=
  ∀ disc, e.key ≠ buildPartitionKey cap.key cap.residualFilterBytes disc

theorem Foreign.fromCapture {e : ScanEntry}
    (h : Foreign cap e) : FromCapture eng cap e := fun disc hk => absurd hk (h disc)

theorem FromCapture.hit (e : ScanEntry)
    (h : FromCapture eng cap e) : FromCapture eng cap e.hit := h

theorem Buckets.fromCapture (h : Buckets eng cap.types bks cap.batches) (whole : ResultCacheEntry P)
    {d : Bytes} (hm : (d, bk) ∈ bks) : FromCapture eng cap (bucketEntry cap whole d bk) := by
  intro disc hk
  obtain rfl : d = disc := congrArg ResultCacheKey.inputHash hk
  have hbs : (bucketEntry cap whole d bk).streams.flatMap (·.batches) = bk.batches := by
    simp [bucketEntry]
  rw [hbs]
  exact ⟨h.sound _ _ hm, h.nonempty _ _ hm⟩

/-- Each entry of the split is that of a partition. -/
theorem fromCapture_partitionEntries {whole : ResultCacheEntry P} {e : ScanEntry}
    (h : e ∈ partitionEntries eng cap whole) : 0 ≤ e.totalBytes ∧ FromCapture eng cap e ∧
      ∃ disc, e.key = buildPartitionKey cap.key cap.residualFilterBytes disc := by
  rw [partitionEntries] at h
  split_ifs at h
  · cases h
  split at h
  · cases h
  rename_i bks hb
  split_ifs at h
  · cases h
  have hin : Buckets eng cap.types [] [] := ⟨by simp, by simp, by simp, by simp⟩
  have hbk := hin.bucketBatches hb
  rw [nil_append] at hbk
  obtain ⟨⟨d, bk⟩, hm, rfl⟩ := mem_map.1 h
  exact ⟨hbk.nonneg _ _ hm, hbk.fromCapture whole hm, d, rfl⟩

variable {t : MemoryTier (List CachedStream)}

/-- The split stores the batches captured of each partition. -/
theorem splitAndStorePartitionEntries_spec (cap : PartitionCapture Ty) (whole : ResultCacheEntry P)
    (allowDisk : Bool) (ht : t.Inv) (hq : t.Holds (FromCapture eng cap)) :
    (splitAndStorePartitionEntries eng cap whole allowDisk t).Inv ∧
      (splitAndStorePartitionEntries eng cap whole allowDisk t).Holds (FromCapture eng cap) := by
  refine hq.foldl_insertLocked id allowDisk ht fun e he => ?_
  obtain ⟨hnn, hfc, -⟩ := fromCapture_partitionEntries he
  exact ⟨hnn, hfc⟩

/-! ## What the serve replays -/

/-- The batch is of the partition requested by the tuple, by their keys. -/
def sameKey (eng : PartitionEngine V Ty) (types : List Ty) (tuple : List V) (b : CachedBatch) : Bool :=
  (partitionTuple eng types b).map (tupleDisc eng) = partitionDiscriminator eng tuple types

theorem allHits_eq_some {rs : List (Option (ResultCacheEntry P))}
    {hits : List (ResultCacheEntry P)} (h : allHits rs = some hits) : rs = hits.map some := by
  induction rs generalizing hits with
  | nil =>
    cases h
    rfl
  | cons r rs ih =>
    cases r with
    | none => exact absurd h (by simp [allHits])
    | some e =>
      rw [allHits] at h
      split at h
      · exact absurd h (by simp)
      · obtain ⟨hs, hrs, rfl⟩ := Option.map_eq_some_iff.1 h
        rw [ih hrs, map_cons]

/-- Numbering the batches anew does not change their content. -/
theorem mergeBatches_content (hits : List ScanEntry) :
    (mergeBatches hits).map (·.content) = (hits.flatMap fun h => h.streams.flatMap (·.batches)).map (·.content) := by
  rw [mergeBatches, map_map]
  refine ext_getElem? fun i => ?_
  simp only [getElem?_map, getElem?_zipIdx, Option.map_map]
  rfl

variable {cls : PartitionClass V Ty} {served : ScanEntry}

/-- Only enumerable scans are served. -/
theorem servePartitions_enumerable {key : ResultCacheKey} {catalogName : Bytes} {now : ℤ}
    (h : servePartitions eng key catalogName cls now t = some served) : cls.enumerable = true := by
  rw [servePartitions] at h
  split at h
  case isTrue hen => exact (Bool.and_eq_true_iff.1 hen).1
  case isFalse => exact absurd h (by simp)

/-- Parts that are not empty, one for each request. -/
theorem flatMap_eq_of_forall₂ {α β γ : Type*} {as : List α} {bs : List β} {f : α → List γ}
    {g : β → List γ} (h : List.Forall₂ (fun a b => g b = f a ∧ g b ≠ []) as bs) :
    bs.flatMap g = as.flatMap f ∧ ∀ a ∈ as, f a ≠ [] := by
  induction h with
  | nil => simp
  | cons hab _ ih =>
    refine ⟨by rw [flatMap_cons, flatMap_cons, hab.1, ih.1], ?_⟩
    exact forall_mem_cons.2 ⟨hab.1 ▸ hab.2, ih.2⟩

/-- A scan served from a tier that holds what the split stored replays, for each
    tuple requested, the batches captured of its partition; and there are some. -/
theorem servePartitions_spec {key : ResultCacheKey} {catalogName : Bytes} {now : ℤ} (ht : t.Inv)
    (hq : t.Holds (FromCapture eng cap)) (hts : cls.types = cap.types)
    (hkey : ∀ disc, buildPartitionKey key cls.residualFilterBytes disc =
      buildPartitionKey cap.key cap.residualFilterBytes disc)
    (h : servePartitions eng key catalogName cls now t = some served) :
    (served.streams.flatMap (·.batches)).map (·.content) = (cls.enumeratedTuples.flatMap fun tuple =>
        cap.batches.filter (sameKey eng cap.types tuple)).map (·.content) ∧
      ∀ tuple ∈ cls.enumeratedTuples, (castTuple eng tuple cap.types).isSome ∧
        ∃ b ∈ cap.batches, sameKey eng cap.types tuple b = true := by
  rw [servePartitions] at h
  split at h
  case isFalse => exact absurd h (by simp)
  case isTrue =>
    split at h
    · exact absurd h (by simp)
    rename_i discs hds
    obtain ⟨hits, hht, rfl⟩ := Option.map_eq_some_iff.1 h
    have hd := eq_map_of_allSome hds
    rw [hts] at hd
    have hf := (hq.lookupBatch ht FromCapture.hit now (discs.map (buildPartitionKey key cls.residualFilterBytes))).2
    rw [allHits_eq_some hht, forall₂_map_left_iff, forall₂_map_right_iff] at hf
    -- each hit has the batches of the partition it was looked up for
    have hf' : List.Forall₂ (fun d (e : ScanEntry) =>
        e.streams.flatMap (·.batches) = cap.batches.filter (ofPartition eng cap.types d) ∧
          e.streams.flatMap (·.batches) ≠ []) discs hits := hf.imp fun d e he => by
      obtain ⟨hc, hk⟩ := he e rfl
      exact hc d (hk.trans (hkey d))
    obtain ⟨hfl, hne⟩ := flatMap_eq_of_forall₂ hf'
    refine ⟨?_, fun tuple htp => ?_⟩
    · have hpr : (cls.enumeratedTuples.flatMap fun tuple =>
          cap.batches.filter (sameKey eng cap.types tuple)) =
            (cls.enumeratedTuples.map (partitionDiscriminator eng · cap.types)).flatMap fun o =>
              cap.batches.filter fun b => (partitionTuple eng cap.types b).map (tupleDisc eng) = o := by
        rw [flatMap_map]
        rfl
      rw [hpr, hd, flatMap_map]
      have hsr : (combinedEntry key catalogName hits).streams.flatMap (·.batches) =
          mergeBatches hits := by simp [combinedEntry]
      rw [hsr, mergeBatches_content, hfl]
      rfl
    · have hmem : partitionDiscriminator eng tuple cap.types ∈ discs.map some :=
        hd ▸ mem_map_of_mem htp
      obtain ⟨d, hdm, hdt⟩ := mem_map.1 hmem
      refine ⟨?_, ?_⟩
      · rw [partitionDiscriminator_eq] at hdt
        obtain ⟨w, hw, _⟩ := Option.map_eq_some_iff.1 hdt.symm
        rw [hw]
        rfl
      · obtain ⟨b, hb⟩ := exists_mem_of_ne_nil _ (hne d hdm)
        obtain ⟨hb, hof⟩ := mem_filter.1 hb
        refine ⟨b, hb, ?_⟩
        rw [sameKey, ← hdt]
        exact hof

end

end Vgi
