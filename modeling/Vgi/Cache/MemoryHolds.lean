import Vgi.Cache.MemoryInvariant

/-!
# What the memory tier holds

The operations of the memory tier only remove entries, serve them once more or
add those they are given. So a property of entries that serving keeps holds of
every entry in every run, if it holds of the entries added (`Holds.run`).
-/

namespace Vgi

open List MemoryTier

namespace MemoryTier

variable {P : Type*} {t : MemoryTier P}

/-! ## The locked sections

Each of them keeps the tier accounted, whatever its caps, and the configuration. -/

section

variable (h : t.Accounted)

include h

theorem Accounted.dropKey (k : ResultCacheKey) : (t.dropKey k).Accounted := by
  rw [MemoryTier.dropKey]
  split
  case h_1 n hf => exact h.dropNode (h.find_iff.1 hf).1
  case h_2 => exact h

theorem Accounted.configure (s : CacheSettings) : (t.configure s).Accounted := by
  refine Accounted.evict ?_ 0 false
  exact h.congr

theorem Accounted.probe (k : ResultCacheKey) (now : ℤ) : (t.probe k now).1.Accounted := by
  rw [MemoryTier.probe]
  split
  · exact h
  rename_i n hf
  split
  · exact (h.dropNode (h.find_iff.1 hf).1).congr
  · exact (h.splice hf).congr

variable {e : ResultCacheEntry P}

theorem Accounted.adopt (he : 0 ≤ e.totalBytes) : (t.adopt e).1.Accounted := by
  rw [MemoryTier.adopt]
  split
  case isTrue hc =>
    simp only [Bool.and_eq_true, Option.isNone_iff_eq_none] at hc
    have hk : ∀ e' ∈ (t.evictToFitLocked e.totalBytes true).entries, e'.key ≠ e.hit.key :=
      fun e' he' => h.wf.find_eq_none_iff.1 hc.1.1 e' ((h.entries_evict _ _).subset he')
    exact ((h.evict _ _).link hk he).congr
  case isFalse => exact h.congr

theorem Accounted.insertLocked (he : 0 ≤ e.totalBytes)
    (allowDisk : Bool) : (t.insertLocked e allowDisk).1.Accounted := by
  have hrp : (t.replace e).Accounted := by
    rw [MemoryTier.replace]
    split
    · refine ((h.dropKey e.key).evict _ _).link (fun e' he' => ?_) he
      have he'' := ((h.dropKey e.key).entries_evict e.totalBytes true).subset he'
      rw [h.entries_dropKey] at he''
      simpa using (mem_filter.1 he'').2
    · exact h.dropKey e.key
  rw [MemoryTier.insertLocked]
  split
  · exact h
  change ((t.replace e).noteInsert _).Accounted
  rw [MemoryTier.noteInsert]
  split
  · exact hrp.congr
  · exact hrp

theorem Accounted.lookup (k : ResultCacheKey) (now nowUnix : ℤ) {d : DiskReads P}
    (hd : d.Nonneg) : (t.lookup k now nowUnix d).1.Accounted := by
  have hp := h.probe k now
  have hlk := t.looked_lookup k now nowUnix d
  revert hlk
  generalize t.lookup k now nowUnix d = r
  rintro (_ | he | _ | _)
  · exact hp
  · rcases he with he | ⟨-, he⟩
    · exact hp.adopt (hd.packLookup he)
    · exact hp.adopt (hd.loadFromDisk he)
  · exact hp.congr
  · exact hp.congr

end

theorem probe_config (t : MemoryTier P) (k : ResultCacheKey) (now : ℤ) :
    (t.probe k now).1.settings = t.settings ∧ (t.probe k now).1.disk = t.disk := by
  rw [probe]
  split
  · exact ⟨rfl, rfl⟩
  · split <;> exact ⟨rfl, rfl⟩

theorem adopt_config (t : MemoryTier P) (e : ResultCacheEntry P) :
    (t.adopt e).1.settings = t.settings ∧ (t.adopt e).1.disk = t.disk := by
  rw [adopt]
  split
  · exact ⟨evictToFitLocked_settings .., evictToFitLocked_disk ..⟩
  · exact ⟨rfl, rfl⟩

theorem lookup_config (t : MemoryTier P) (k : ResultCacheKey) (now nowUnix : ℤ) (d : DiskReads P) :
    (t.lookup k now nowUnix d).1.settings = t.settings ∧ (t.lookup k now nowUnix d).1.disk = t.disk := by
  have hp := probe_config t k now
  have hlk := t.looked_lookup k now nowUnix d
  revert hlk
  generalize t.lookup k now nowUnix d = r
  rintro (_ | @⟨e, _⟩ | _ | _)
  · exact hp
  · obtain ⟨hset, hds⟩ := adopt_config (t.probe k now).1 e
    exact ⟨hset.trans hp.1, hds.trans hp.2⟩
  · exact hp
  · exact hp

/-- The entry is returned as it was read. -/
theorem adopt_streams (t : MemoryTier P) (e : ResultCacheEntry P) : (t.adopt e).2.streams = e.streams := by
  rw [adopt]
  split <;> rfl

theorem insertLocked_config (t : MemoryTier P) (e : ResultCacheEntry P) (allowDisk : Bool) :
    (t.insertLocked e allowDisk).1.settings = t.settings ∧ (t.insertLocked e allowDisk).1.disk = t.disk := by
  have hrp : (t.replace e).settings = t.settings ∧ (t.replace e).disk = t.disk := by
    rw [replace]
    split
    · exact ⟨(evictToFitLocked_settings ..).trans (dropKey_settings ..),
        (evictToFitLocked_disk ..).trans (dropKey_disk ..)⟩
    · exact ⟨dropKey_settings .., dropKey_disk ..⟩
  rw [insertLocked]
  split
  · exact ⟨rfl, rfl⟩
  · change ((t.replace e).noteInsert _).settings = _ ∧ ((t.replace e).noteInsert _).disk = _
    rw [noteInsert]
    split <;> exact hrp

/-- An entry is only persisted if the disk tier is on. -/
theorem insertLocked_plan {allowDisk : Bool} {plan : PersistPlan} (h : (t.insertLocked e allowDisk).2.2 = some plan) :
    plan.dir = t.disk.dir ∧ plan.diskMax = t.disk.maxBytes ∧ t.diskEnabledLocked = true := by
  rw [insertLocked] at h
  split at h
  · cases h
  change t.persistPlan e allowDisk = some plan at h
  rw [persistPlan] at h
  split at h
  case isTrue hen =>
    cases h
    exact ⟨rfl, rfl, (Bool.and_eq_true_iff.1 hen).2⟩
  case isFalse => cases h

/-- What is in memory after the locked section of an `Insert`: the entry, and of the others those of other keys. -/
theorem Accounted.mem_insertLocked (h : t.Accounted) {e' : ResultCacheEntry P} {allowDisk : Bool}
    (he' : e' ∈ (t.insertLocked e allowDisk).1.entries) :
    (toInt64 t.settings.maxEntryBytes < e.totalBytes ∧ e' ∈ t.entries) ∨
      (e.totalBytes ≤ toInt64 t.settings.maxEntryBytes ∧
        (e' = e ∧ t.retains e = true ∨ e' ∈ t.entries ∧ e'.key ≠ e.key)) := by
  have hdr : ∀ e' ∈ (t.dropKey e.key).entries, e' ∈ t.entries ∧ e'.key ≠ e.key := by
    intro e' he'
    rw [h.entries_dropKey] at he'
    simpa using he'
  have hrp : e' ∈ (t.replace e).entries → e' = e ∧ t.retains e = true ∨ e' ∈ t.entries ∧ e'.key ≠ e.key := by
    intro he'
    rw [MemoryTier.replace] at he'
    split at he'
    case isTrue hrt =>
      rw [entries_link, mem_cons] at he'
      rcases he' with rfl | he'
      · exact .inl ⟨rfl, hrt⟩
      · exact .inr (hdr e' (((h.dropKey e.key).entries_evict _ _).subset he'))
    case isFalse => exact .inr (hdr e' he')
  rw [MemoryTier.insertLocked] at he'
  split at he'
  case isTrue hlr => exact .inl ⟨hlr, he'⟩
  rename_i hlr
  refine .inr ⟨not_lt.1 hlr, hrp ?_⟩
  change e' ∈ ((t.replace e).noteInsert _).entries at he'
  rw [MemoryTier.noteInsert] at he'
  split at he' <;> exact he'

/-! ## What the tier holds -/

/-- Every entry of the tier satisfies `Q`. -/
def Holds (t : MemoryTier P) (Q : ResultCacheEntry P → Prop) : Prop := ∀ e ∈ t.entries, Q e

variable {Q : ResultCacheEntry P → Prop}

theorem Holds.evict (h : t.Accounted) (hq : t.Holds Q) (b : ℤ) (a : Bool) : (t.evictToFitLocked b a).Holds Q :=
  fun e he => hq e ((h.entries_evict b a).subset he)

theorem Holds.configure (h : t.Accounted) (hq : t.Holds Q) (s : CacheSettings) : (t.configure s).Holds Q := by
  refine Holds.evict ?_ ?_ 0 false
  · exact h.congr
  · exact hq

theorem holds_init (s : CacheSettings) : ((init : MemoryTier P).configure s).Holds Q :=
  Holds.configure accounted_init (fun _ he => absurd he not_mem_nil) s

theorem Holds.link (hq : t.Holds Q) (he : Q e) : (t.link e).Holds Q := forall_mem_cons.2 ⟨he, hq⟩

/-- A probe returns a fresh entry of the key, served once more. -/
theorem Accounted.probe_eq_some (h : t.Accounted) {k : ResultCacheKey} {now : ℤ}
    (hp : (t.probe k now).2 = some e) : ∃ e₀ ∈ t.entries, e₀.key = k ∧ e₀.isStale now = false ∧ e = e₀.hit := by
  rw [MemoryTier.probe] at hp
  split at hp
  · simp at hp
  rename_i n hf
  split at hp
  · simp at hp
  rename_i hs
  obtain ⟨_, hk⟩ := h.find_iff.1 hf
  exact ⟨n.val, h.mem_entries hf, hk, by simpa using hs, by simpa using hp.symm⟩

/-- A probe only removes an entry, or serves it once more. -/
theorem Holds.probe (h : t.Accounted) (hQ : ∀ e, Q e → Q e.hit) (hq : t.Holds Q)
    (k : ResultCacheKey) (now : ℤ) : (t.probe k now).1.Holds Q := by
  rw [MemoryTier.probe]
  split
  · exact hq
  rename_i n hf
  obtain ⟨hn, rfl⟩ := h.find_iff.1 hf
  split
  case isTrue =>
    intro e he
    change e ∈ (t.dropNode n).entries at he
    rw [h.entries_dropNode hn] at he
    exact hq e (mem_of_mem_filter he)
  case isFalse =>
    intro e he
    change e ∈ (t.lists.splice n.val.key n n.val.hit).vals at he
    rw [h.wf.vals_splice _ hf] at he
    rcases mem_cons.1 he with rfl | he
    · exact hQ _ (hq _ (h.mem_entries hf))
    · exact hq e (mem_of_mem_filter he)

theorem Holds.adopt (h : t.Accounted) (hQ : ∀ e, Q e → Q e.hit) (hq : t.Holds Q)
    (he : Q e) : (t.adopt e).1.Holds Q := by
  rw [MemoryTier.adopt]
  split
  · exact (hq.evict h _ _).link (hQ e he)
  · exact hq

theorem Holds.insertLocked (h : t.Accounted) (hq : t.Holds Q) (he : Q e)
    (allowDisk : Bool) : (t.insertLocked e allowDisk).1.Holds Q := by
  intro e' he'
  rcases h.mem_insertLocked he' with ⟨-, he'⟩ | ⟨-, ⟨rfl, -⟩ | ⟨he', -⟩⟩
  · exact hq e' he'
  · exact he
  · exact hq e' he'

/-- Inserting entries one after the other. -/
theorem Holds.foldl_insertLocked {α : Type*} (f : α → ResultCacheEntry P) (allowDisk : Bool) {l : List α} (h : t.Inv)
    (hq : t.Holds Q) (hl : ∀ x ∈ l, 0 ≤ (f x).totalBytes ∧ Q (f x)) :
    (l.foldl (fun t x => (t.insertLocked (f x) allowDisk).1) t).Inv ∧
      (l.foldl (fun t x => (t.insertLocked (f x) allowDisk).1) t).Holds Q := by
  induction l generalizing t with
  | nil => exact ⟨h, hq⟩
  | cons x l ih =>
    obtain ⟨⟨hx, hqx⟩, hl⟩ := forall_mem_cons.1 hl
    exact ih (h.insertLocked hx allowDisk) (hq.insertLocked h.toAccounted hqx allowDisk) hl

theorem Holds.dropWhere (h : t.Accounted) (hq : t.Holds Q) (p : ResultCacheEntry P → Bool) :
    (t.dropWhere p).1.Holds Q := fun e he => by
  rw [(h.dropWhere p).2.2.2] at he
  exact hq e (mem_of_mem_filter he)

/-- The keys of a batch are probed one after the other: each answer is an entry of its key. -/
theorem Holds.lookupBatch (h : t.Inv) (hQ : ∀ e, Q e → Q e.hit) (hq : t.Holds Q) (now : ℤ)
    (ks : List ResultCacheKey) : (t.lookupBatch now ks).1.Holds Q ∧
      List.Forall₂ (fun k r => ∀ e, r = some e → Q e ∧ e.key = k) ks (t.lookupBatch now ks).2 := by
  induction ks generalizing t with
  | nil => exact ⟨hq, .nil⟩
  | cons k ks ih =>
    have hp := hq.probe h.toAccounted hQ k now
    have hc : (t.probeCounted k now).1.Holds Q := by
      rw [probeCounted]
      split
      case h_1 he => rwa [he] at hp
      rename_i he
      rw [he] at hp
      exact hp
    obtain ⟨hh, hf⟩ := ih (h.probeCounted k now) hc
    refine ⟨hh, .cons (fun e he => ?_) hf⟩
    have hpe : (t.probe k now).2 = some e := by
      rw [probeCounted] at he
      split at he
      case h_1 hpe => rw [hpe]; exact he
      case h_2 => simp at he
    obtain ⟨e₀, he₀, hk, _, rfl⟩ := h.probe_eq_some hpe
    exact ⟨hQ _ (hq e₀ he₀), hk⟩

/-! ## Runs -/

/-- The entries an operation may add satisfy `Q`. -/
def Op.Adds (Q : ResultCacheEntry P → Prop) : Op P → Prop
  | .lookup _ _ _ disk => (∀ {dir k now e}, disk.packLookup dir k now = some e → Q e) ∧
      ∀ {k dir e}, disk.loadFromDisk k dir = some e → Q e
  | .adopt e | .insert e _ => Q e
  | _ => True

theorem Op.Adds.mono {Q' : ResultCacheEntry P → Prop} {op : Op P} (h : op.Adds Q)
    (hQ : ∀ e, Q e → Q' e) : op.Adds Q' := by
  cases op with
  | lookup k now nowUnix disk => exact ⟨fun he => hQ _ (h.1 he), fun he => hQ _ (h.2 he)⟩
  | adopt e => exact hQ e h
  | insert e allowDisk => exact hQ e h
  | _ => trivial

theorem Holds.lookup (h : t.Accounted) (hQ : ∀ e, Q e → Q e.hit) (hq : t.Holds Q) (k : ResultCacheKey)
    (now nowUnix : ℤ) {d : DiskReads P} (hp : ∀ {e}, d.packLookup (t.probe k now).1.disk.dir k nowUnix = some e → Q e)
    (hl : ∀ {e}, d.packLookup (t.probe k now).1.disk.dir k nowUnix = none →
      d.loadFromDisk k (t.probe k now).1.disk.dir = some e → Q e) :
    (t.lookup k now nowUnix d).1.Holds Q := by
  have hh := hq.probe h hQ k now
  have hlk := t.looked_lookup k now nowUnix d
  revert hlk
  generalize t.lookup k now nowUnix d = r
  rintro (_ | he | _ | _)
  · exact hh
  · rcases he with he | ⟨hpc, he⟩
    · exact hh.adopt (h.probe k now) hQ (hp he)
    · exact hh.adopt (h.probe k now) hQ (hl hpc he)
  · exact hh
  · exact hh

/-- An operation keeps what holds of every entry, if it holds of those it adds. -/
theorem Holds.step (h : t.Inv) (hQ : ∀ e, Q e → Q e.hit) (hq : t.Holds Q) {op : Op P}
    (hop : op.Adds Q) : (t.step op).Holds Q := by
  cases op with
  | configure s => exact hq.configure h.toAccounted s
  | lookup k now nowUnix disk => exact hq.lookup h.toAccounted hQ k now nowUnix hop.1 (fun _ he => hop.2 he)
  | probe k now => exact hq.probe h.toAccounted hQ k now
  | adopt e => exact hq.adopt h.toAccounted hQ hop
  | lookupBatch ks now => exact (hq.lookupBatch h hQ now ks).1
  | lookupForRevalidation k now => exact hq
  | insert e allowDisk => exact hq.insertLocked h.toAccounted hop allowDisk
  | flushCatalog catalog => exact hq.dropWhere h.toAccounted _
  | flushAll =>
    intro e he
    exact absurd he not_mem_nil
  | reapStale now => exact hq.dropWhere h.toAccounted _

theorem Holds.run (h : t.Inv) (hQ : ∀ e, Q e → Q e.hit) (hq : t.Holds Q) {ops : List (Op P)}
    (hs : ∀ op ∈ ops, op.Sized) (ha : ∀ op ∈ ops, op.Adds Q) : (t.run ops).Holds Q := by
  induction ops generalizing t with
  | nil => exact hq
  | cons op ops ih =>
    obtain ⟨hop, hs⟩ := forall_mem_cons.1 hs
    obtain ⟨hoa, ha⟩ := forall_mem_cons.1 ha
    exact ih (h.step hop) (hq.step h hQ hoa) hs ha

end MemoryTier

end Vgi
