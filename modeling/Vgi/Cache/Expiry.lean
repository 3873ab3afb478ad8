import Vgi.Cache.Concurrent
import Vgi.Scan.Capture

/-!
# Expiry dates

A worker can say until when its result is fresh, and not for how long. The date makes the result
cacheable, but it is never read: what is stored with it lasts as long as the settings say, or, after
an exchange was revalidated, as long as before. So the date is only kept to where these end by then
(`deadline_kept_iff`). A scan that was revalidated is stale at once, unless it never expires.
-/

namespace Vgi

open Option ResultCacheEntry

variable {P B : Type*}

/-- `StoreExchangeMemoEntry`: the entry it inserts, and whether this may go to disk; or why there is none. -/
def storeExchangeMemoEntry (io : BatchCodec B) (key : ResultCacheKey) (cc : CacheControl) (catalogName : Bytes)
    (defaultTtlSeconds : ℤ) (outBatches : List (Option B)) (allowDisk allowImmediatelyStale : Bool) (now : ℤ) :
    Except Bytes (ScanEntry × Bool) :=
  let ttl := min (cc.ttlSeconds.getD defaultTtlSeconds) maxTtlSeconds
  let batches := outBatches.reduceOption.map fun b =>
    ({ ipc := some (io.serializeRecordBatch (ascii "none") 1 b), rows := io.numRows b } : CachedBatch)
  let rows := (batches.map (·.rows)).sum
  let bytes := (batches.map fun b => ((b.ipc.getD []).length : ℤ)).sum
  if !cc.cacheable then .error (ascii "not_cacheable")
  else if cc.transactionScoped then .error (ascii "transaction_scoped")
  else if ttl ≤ 0 ∧ !allowImmediatelyStale then .error (ascii "immediately_stale_per_value")
  else if ttl ≤ 0 ∧ ¬(cc.revalidatable ∧ cc.etag ≠ []) then .error (ascii "no_freshness")
  else .ok
    ({ key := key
       streams := [⟨batches, bytes, rows⟩]
       totalBytes := bytes
       rows := rows
       storedAt := now
       expiresAt := now + (if 0 < ttl then ttl else 0) * second
       scope := cc.scope
       etag := cc.etag
       lastModified := cc.lastModified
       revalidatable := cc.revalidatable
       catalogName := catalogName },
      allowDisk && 0 < ttl)

/-- An advertisement whose only freshness key is an expiry date. -/
abbrev ExpiryOnly := { cc : CacheControl // cc.ttlSeconds = none ∧ cc.expiresRfc3339 ≠ [] }

namespace ResultCacheEntry

/-- No lookup after it was stored finds the entry in memory fresh, from the deadline on. (The lifetime of a
    copy on disk begins when it is written, and is not looked at here.) -/
def StaleFrom (e : ResultCacheEntry P) (deadline : ℤ) : Prop :=
  ∀ t, deadline ≤ t → e.storedAt ≤ t → e.isStale t = true

/-- What has a lifetime is kept to the deadline if there is none, or if it ends by then. -/
theorem staleFrom_iff {e : ResultCacheEntry P} {deadline : ℤ} (ttl : ℤ) (h : e.neverExpires = false →
    e.expiresAt = e.storedAt + (if 0 < ttl then ttl else 0) * second) :
    e.StaleFrom deadline ↔ e.neverExpires = false ∧ (ttl ≤ 0 ∨ e.storedAt + ttl * second ≤ deadline) := by
  have hst : ∀ t, e.isStale t = true ↔ e.neverExpires = false ∧ e.expiresAt ≤ t := fun t => by simp [isStale]
  simp only [StaleFrom, hst]
  constructor
  · intro hfr
    -- the first lookup that counts
    obtain ⟨hnv, hle⟩ := hfr (max deadline e.storedAt) (le_max_left ..) (le_max_right ..)
    rw [h hnv] at hle
    refine ⟨hnv, ?_⟩
    unfold second at hle ⊢
    split_ifs at hle <;> omega
  · rintro ⟨hnv, hen⟩ t ht hsto
    refine ⟨hnv, ?_⟩
    rw [h hnv]
    unfold second at hen ⊢
    split_ifs <;> omega

end ResultCacheEntry

/-- A lifetime, as bounded, that is not positive or ends by the deadline. -/
def EndsBy (ttl now deadline : ℤ) : Prop :=
  min ttl maxTtlSeconds ≤ 0 ∨ now + min ttl maxTtlSeconds * second ≤ deadline

/-- When a deadline is kept: by a complete scan that is stored, by an exchange that is stored, and by
    what is stored anew after each of them was revalidated. -/
theorem deadline_kept_iff (cc : ExpiryOnly) (now deadline : ℤ) :
    (∀ cfg cap (streams : P) rows bytes,
      (complete cfg cap cc = true → ∀ e ∈ capturedEntry cfg cc now streams rows bytes, e.StaleFrom deadline) ↔
        (complete cfg cap cc = true → (cc.1.transactionScoped = true → cfg.transactionId ≠ []) →
          EndsBy (toInt64 cfg.defaultTtlSeconds) now deadline)) ∧
    (∀ (io : BatchCodec B) key catalogName ttl outBatches allowDisk allowImmediatelyStale,
      (∀ r, storeExchangeMemoEntry io key cc catalogName ttl outBatches allowDisk allowImmediatelyStale now = .ok r →
          r.1.StaleFrom deadline) ↔
        (cc.1.cacheable = true → cc.1.transactionScoped = false → EndsBy ttl now deadline)) ∧
    ∀ e : ResultCacheEntry P,
      ((maybeSlideRevalidatedEntry e cc now).1.StaleFrom deadline ↔ e.neverExpires = false) ∧
      ∀ allowDisk, (slideRevalidatedExchangeEntry e cc now allowDisk).1.StaleFrom deadline ↔
        e.neverExpires = false ∧ EndsBy e.lifetime now deadline := by
  simp only [EndsBy]
  refine ⟨fun cfg cap streams rows bytes => forall_congr' fun _ => ?_, fun io key catalogName ttl outBatches allowDisk
    allowImmediatelyStale => ?_, fun e => ⟨?_, fun allowDisk => ?_⟩⟩
  · by_cases htx : cc.1.transactionScoped = true → cfg.transactionId ≠ []
    · have hsc : ¬(cc.1.transactionScoped = true ∧ cfg.transactionId = []) := fun h => htx h.1 h.2
      simp only [capturedEntry, cc.2.1, cc.2.2, hsc, Bool.and_eq_true, decide_eq_true_eq, decide_false,
        Bool.and_false, Bool.false_and, Bool.false_eq_true, if_false, mem_some_iff, forall_eq']
      rw [staleFrom_iff _ fun _ => rfl, getD_none, and_iff_right rfl]
      exact ⟨fun h _ => h, fun h => h htx⟩
    · obtain ⟨hsc, hid⟩ := Classical.not_imp.1 htx
      simp [capturedEntry, hsc, not_not.1 hid]
  · rw [storeExchangeMemoEntry, cc.2.1, getD_none]
    constructor
    · intro h hch hsc
      by_cases htl : min ttl maxTtlSeconds ≤ 0
      · exact .inl htl
      · simp only [hch, hsc, htl, false_and, if_false, Bool.not_true, Bool.false_eq_true] at h
        exact ((staleFrom_iff _ fun _ => rfl).1 (h _ rfl)).2
    · intro h r hr
      generalize hlf : (if 0 < min ttl maxTtlSeconds then _ else 0 : ℤ) = life at hr
      split_ifs at hr with hch hsc
      cases hr
      exact (staleFrom_iff _ fun _ => hlf ▸ rfl).2 ⟨rfl, h (by simpa using hch) (by simpa using hsc)⟩
  · rw [maybeSlideRevalidatedEntry, staleFrom_iff _ fun h => if_neg (Bool.eq_false_iff.1 h)]
    simp [cc.2.1, cc.2.2, slid]
  · rw [slideRevalidatedExchangeEntry, staleFrom_iff _ fun h => if_neg (Bool.eq_false_iff.1 h), cc.2.1]
    refine and_congr_right fun h => ?_
    simp [slid, show e.neverExpires = false from h]

/-- A result that is fresh for five seconds is served for as long as the default says. -/
theorem served_after_deadline :
    ((capturedEntry
      { key := default, catalogName := [], transactionId := [], maxEntryBytes := 0, defaultTtlSeconds := 300,
        catalogVersionFrozen := false, splitPath := false, totalSplits := 0, diskDir := [], diskMax := 0,
        diskCompression := [], diskCompressionLevel := 0 }
      { present := true, expiresRfc3339 := ascii "2026-01-01T00:00:05Z" } 0 () 0 0).map
        (·.isStale (5 * second))) = some false := by
  decide +kernel

end Vgi
